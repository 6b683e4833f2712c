import ReliableTransport.Proofs.Link
import ReliableTransport.Proofs.Openings
import ReliableTransport.Proofs.Receptions

/-! A sender and a receiver on a network that may do anything to what is sent but make it up: every
datagram ever sent may arrive at any time, as often as it likes and with a bit flipped, or never
(`Network.step`). The host of the receiver is at `far`; of the hosts that send to it the one at
`near` is watched, and whatever comes from elsewhere is arbitrary. All that is done is noted, oldest
first, and the log is also what the network can deliver. Calls try again whenever they are woken, so
that what the machines do that let all of them try at once is among it (`reaches_sender_step`). -/
namespace ReliableTransport

/-- What is noted of a sender and a receiver at work. -/
inductive Note
  | conn (c : ConnRef) (deed : Connection.Deed)
  | registry (deed : Registry.Deed)
  | asked (k : CallId) (c : ConnRef) (data : Bytes)
  | settled (k : CallId) (result : Sender.Result)
  deriving DecidableEq

namespace Note

def ofOutput : Sender.Output → Note
  | .send c frame => .conn c (.sent frame)
  | .finish k result => .settled k result

/-- What a call pushes that takes a sender from `s` to `t`, if it pushes on a connection. -/
def ofPushes (k : CallId) (s t : Sender) : Option ConnRef → List Note
  | none => []
  | some d => (Sender.grown s t d).map fun piece => .conn d (.pushed k piece)

/-- What a call does that takes a sender from `s` to `t` with `os` coming out. -/
def ofCall (k : CallId) (subject : Option ConnRef) (s t : Sender) (os : List Sender.Output) :
    List Note :=
  ofPushes k s t subject ++ os.map ofOutput

def output : Note → Option Sender.Output
  | .conn c (.sent frame) => some (.send c frame)
  | .settled k result => some (.finish k result)
  | _ => none

def ofEvent (s : Sender) : Sender.Event → List Note
  | .send id data => ((s.established id).map fun e => .asked s.calls e.1 data).toList
  | _ => []

end Note

/-- A sender, a receiver and all that has been noted of them. -/
structure Network where
  sender : Sender
  receiver : Receiver
  log : List Note
  deriving DecidableEq

/-- What can happen next: something at the sender or at the receiver that is no datagram of the
other, a turn of a woken call of either, a datagram that was sent, or a new sender in the place of
the old one. -/
inductive Move
  | sender (e : Sender.Event)
  | resume (k : CallId)
  | receiver (e : Receiver.Event)
  | recover (k : CallId)
  /-- The datagram noted at a place of the log arrives at the receiver, with a bit flipped if one is
  given. -/
  | forth (place : Nat) (flip : Option (Nat × Nat))
  /-- The datagram noted at a place of the log arrives at the socket of a connection. -/
  | back (place : Nat) (c : ConnRef) (flip : Option (Nat × Nat)) (now : Nat)
  | restart (settings : Sender.Settings)
  deriving DecidableEq

namespace Sender

/-- Nobody holds a socket bound to an address any more: its connections are torn down and no call
about them waits. -/
def Vacant (s : Sender) (a : Address) : Prop :=
  ∀ e ∈ s.conns.zipIdx, e.1.bound = a →
    e.1.closed = true ∧ ∀ w ∈ s.waiting, w.call.conn ≠ e.2

instance (s : Sender) (a : Address) : Decidable (s.Vacant a) :=
  inferInstanceAs (Decidable (∀ e ∈ s.conns.zipIdx, _ → _))

/-- A new sender; what is left of the old one are connections that are gone. -/
def restart (s : Sender) (settings : Settings) : Sender where
  settings := settings
  conns := s.conns.map fun x => x.requestClose.teardown
  table := .empty
  waiting := []
  calls := s.calls

/-- What can happen to a sender whose datagrams from `far` all come over the network. A host binds
one socket at a time to an address. -/
def Allows (far : Address) (s : Sender) : Event → Prop
  | .connect bound _ none _ => s.Vacant bound
  | .datagram _ source _ _ => source ≠ far
  | _ => True

instance (far : Address) (s : Sender) (e : Event) : Decidable (Allows far s e) := by
  unfold Allows
  split <;> infer_instance

end Sender

/-- What can happen to a receiver whose datagrams from `near` all come over the network. -/
def Receiver.Allows (near : Address) : Receiver.Event → Prop
  | .datagram source _ => source ≠ near
  | _ => True

instance (near : Address) (e : Receiver.Event) : Decidable (Receiver.Allows near e) := by
  unfold Receiver.Allows
  split <;> infer_instance

namespace Network

/-- A sender and a receiver that have done nothing yet. -/
def start (ss : Sender.Settings) (rs : Receiver.Settings) : Network :=
  ⟨.start ss,.start rs,[]⟩

def arrival (flip : Option (Nat × Nat)) (frame : Frame) : Bytes :=
  match flip with
  | none => frame.encode
  | some (byte,bit) => Fault.flip frame.encode byte bit

def send (n : Network) (e : Sender.Event) : Network :=
  let t := n.sender.react e
  { n with
    sender := t.1
    log := n.log ++ (Note.ofEvent n.sender e ++
      Note.ofCall n.sender.calls (e.subject n.sender) n.sender t.1 t.2) }

def receive (n : Network) (e : Receiver.Event) : Network :=
  let t := n.receiver.react e
  { n with receiver := t.1, log := n.log ++ (e.deeds n.receiver t.1 t.2).map .registry }

def resume (n : Network) (k : CallId) : Network :=
  let t := n.sender.poll k
  { n with
    sender := t.1
    log := n.log ++ Note.ofCall k (Sender.subject n.sender k) n.sender t.1 t.2 }

def recover (n : Network) (k : CallId) : Network :=
  let t := n.receiver.poll k
  { n with receiver := t.1, log := n.log ++ (n.receiver.polled k t.2).map .registry }

/-- One step of the network. A move that cannot be made changes nothing. -/
def step (near far : Address) (n : Network) : Move → Network
  | .sender e => if n.sender.Allows far e then n.send e else n
  | .resume k => n.resume k
  | .receiver e => if Receiver.Allows near e then n.receive e else n
  | .recover k => n.recover k
  | .forth place flip =>
    match n.log[place]? with
    | some (.conn d (.sent frame)) =>
      match n.sender.conns[d]? with
      | some x =>
        if x.remote = far then n.receive (.datagram x.bound (arrival flip frame)) else n
      | none => n
    | _ => n
  | .back place d flip now =>
    match n.log[place]? with
    | some (.registry (.sent dest frame)) =>
      match n.sender.conns[d]? with
      | some x => if x.bound = dest then n.send (.datagram d far (arrival flip frame) now) else n
      | none => n
    | _ => n
  | .restart settings => { n with sender := n.sender.restart settings }

def run (near far : Address) (n : Network) (ms : List Move) : Network := ms.foldl (step near far) n

/-- The networks that some moves lead to. -/
inductive Reaches (near far : Address) (n : Network) : Network → Prop
  | refl : Reaches near far n n
  | step {m : Network} (h : Reaches near far n m) (move : Move) :
      Reaches near far n (m.step near far move)

theorem Reaches.run {near far : Address} {n m : Network} (h : Reaches near far n m)
    (ms : List Move) : Reaches near far n (m.run near far ms) := by
  induction ms generalizing m with
  | nil => exact h
  | cons move ms ih => exact ih (h.step move)

theorem reaches_run (near far : Address) (n : Network) (ms : List Move) :
    Reaches near far n (n.run near far ms) := Reaches.refl.run ms

/-- A datagram that arrives at the receiver was sent by a connection to it. -/
theorem step_forth (near far : Address) (n : Network) (place : Nat) (flip : Option (Nat × Nat)) :
    n.step near far (.forth place flip) = n ∨
      ∃ d frame x, n.log[place]? = some (.conn d (.sent frame)) ∧ n.sender.conns[d]? = some x ∧
        x.remote = far ∧
        n.step near far (.forth place flip) = n.receive (.datagram x.bound (arrival flip frame)) := by
  simp only [Network.step]
  split
  · rename_i d frame hl
    split
    · rename_i x hx
      split
      · rename_i hr
        exact .inr ⟨d,frame,x,hl,hx,hr,rfl⟩
      · exact .inl rfl
    · exact .inl rfl
  · exact .inl rfl

/-- A datagram that arrives at a socket was sent to it by the receiver. -/
theorem step_back (near far : Address) (n : Network) (place : Nat) (d : ConnRef)
    (flip : Option (Nat × Nat)) (now : Nat) :
    n.step near far (.back place d flip now) = n ∨
      ∃ frame x, n.sender.conns[d]? = some x ∧
        n.log[place]? = some (.registry (.sent x.bound frame)) ∧
        n.step near far (.back place d flip now) =
          n.send (.datagram d far (arrival flip frame) now) := by
  simp only [Network.step]
  split
  · rename_i dest frame hl
    split
    · rename_i x hx
      split
      · rename_i hb
        rw [← hb] at hl
        exact .inr ⟨frame,x,hx,hl,rfl⟩
      · exact .inl rfl
    · exact .inl rfl
  · exact .inl rfl

inductive Moved (n : Network) : Network → Prop
  | same : Moved n n
  | send (e : Sender.Event) : Moved n (n.send e)
  | resume (k : CallId) : Moved n (n.resume k)
  | receive (e : Receiver.Event) : Moved n (n.receive e)
  | recover (k : CallId) : Moved n (n.recover k)
  | restart (settings : Sender.Settings) : Moved n { n with sender := n.sender.restart settings }

theorem moved (near far : Address) (n : Network) (move : Move) :
    n.Moved (n.step near far move) := by
  cases move with
  | sender e =>
    simp only [step]
    split
    · exact .send e
    · exact .same
  | resume k => exact .resume k
  | receiver e =>
    simp only [step]
    split
    · exact .receive e
    · exact .same
  | recover k => exact .recover k
  | forth place flip =>
    rcases step_forth near far n place flip with he | ⟨d,frame,x,_,_,_,he⟩
    · rw [he]
      exact .same
    · rw [he]
      exact .receive _
  | back place d flip now =>
    rcases step_back near far n place d flip now with he | ⟨frame,x,_,_,he⟩
    · rw [he]
      exact .same
    · rw [he]
      exact .send _
  | restart settings => exact .restart settings

theorem output_ofCall (k : CallId) (subject : Option ConnRef) (s t : Sender)
    (os : List Sender.Output) : (Note.ofCall k subject s t os).filterMap Note.output = os := by
  have hos : (os.map Note.ofOutput).filterMap Note.output = os := by
    induction os with
    | nil => rfl
    | cons o os ih =>
      rw [List.map_cons,List.filterMap_cons,ih]
      cases o <;> rfl
  have hpushes : (Note.ofPushes k s t subject).filterMap Note.output = [] := by
    refine List.filterMap_eq_nil_iff.mpr fun note hm => ?_
    cases subject with
    | none => cases hm
    | some d =>
      obtain ⟨piece,_,rfl⟩ := List.mem_map.mp hm
      rfl
  rw [Note.ofCall,List.filterMap_append,hpushes,hos,List.nil_append]

theorem output_ofEvent (s : Sender) (e : Sender.Event) :
    (Note.ofEvent s e).filterMap Note.output = [] := by
  cases e with
  | send id data =>
    simp only [Note.ofEvent]
    cases s.established id with
    | none => rfl
    | some e => rfl
  | _ => rfl

/-- Calls that try again one after the other do what they do in the sender alone. -/
theorem run_resume (near far : Address) (ks : List CallId) (n : Network) :
    (n.run near far (ks.map .resume)).sender = (chain Sender.poll n.sender ks).1 ∧
      (n.run near far (ks.map .resume)).receiver = n.receiver ∧
      (n.run near far (ks.map .resume)).log.filterMap Note.output =
        n.log.filterMap Note.output ++ (chain Sender.poll n.sender ks).2 := by
  induction ks generalizing n with
  | nil => exact ⟨rfl,rfl,(List.append_nil _).symm⟩
  | cons k ks ih =>
    obtain ⟨hs,hr,hl⟩ := ih (n.resume k)
    refine ⟨hs,hr,hl.trans ?_⟩
    have hlog : (n.resume k).log.filterMap Note.output =
        n.log.filterMap Note.output ++ (n.sender.poll k).2 := by
      rw [Network.resume,List.filterMap_append,output_ofCall]
    rw [hlog,List.append_assoc]
    rfl

theorem settleRounds_eq (fuel : Nat) (s : Sender) :
    ∃ ks, s.settleRounds fuel = chain Sender.poll s ks := by
  induction fuel generalizing s with
  | zero => exact ⟨[],rfl⟩
  | succ fuel ih =>
    unfold Sender.settleRounds
    split
    · exact ⟨[],rfl⟩
    · obtain ⟨ks,hks⟩ := ih (chain Sender.poll s (Waiting.ready s.waiting)).1
      exact ⟨Waiting.ready s.waiting ++ ks,by rw [chain_append,← hks]⟩

/-- Whatever a sender does that lets all woken calls try again, a network can do, and notes what
comes out of it. -/
theorem reaches_sender_step (near : Address) {far : Address} (n : Network) {e : Sender.Event}
    (ha : n.sender.Allows far e) :
    ∃ m, Reaches near far n m ∧ m.sender = (n.sender.step e).1 ∧ m.receiver = n.receiver ∧
      m.log.filterMap Note.output = n.log.filterMap Note.output ++ (n.sender.step e).2 := by
  obtain ⟨ks,hks⟩ := settleRounds_eq ((n.sender.react e).1.waiting.length + 1) (n.sender.react e).1
  have hsettle : (n.sender.react e).1.settle = chain Sender.poll (n.sender.react e).1 ks := hks
  obtain ⟨hs,hr,hl⟩ := run_resume near far ks (n.send e)
  have hfirst : n.step near far (.sender e) = n.send e := by
    simp only [Network.step]
    rw [if_pos ha]
  have hlog : (n.send e).log.filterMap Note.output =
      n.log.filterMap Note.output ++ (n.sender.react e).2 := by
    rw [Network.send,List.filterMap_append,List.filterMap_append,output_ofEvent,output_ofCall,
      List.nil_append]
  have hrun : n.run near far (.sender e :: ks.map .resume) =
      (n.send e).run near far (ks.map .resume) := by
    rw [Network.run,List.foldl_cons,hfirst]
    rfl
  refine ⟨_,reaches_run near far n (.sender e :: ks.map .resume),?_⟩
  rw [hrun]
  refine ⟨hs.trans ?_,hr,hl.trans ?_⟩
  · show _ = (n.sender.react e).1.settle.1
    rw [hsettle]
    rfl
  · show _ = _ ++ ((n.sender.react e).2 ++ (n.sender.react e).1.settle.2)
    rw [hlog,hsettle,List.append_assoc]
    rfl

theorem run_recover (near far : Address) (ks : List CallId) (n : Network) :
    (n.run near far (ks.map .recover)).receiver = (chain Receiver.poll n.receiver ks).1 ∧
      (n.run near far (ks.map .recover)).sender = n.sender := by
  induction ks generalizing n with
  | nil => exact ⟨rfl,rfl⟩
  | cons k ks ih => exact ih (n.recover k)

/-- Whatever a receiver does that lets all woken calls try again, a network can do. -/
theorem reaches_receiver_step {near : Address} (far : Address) (n : Network) {e : Receiver.Event}
    (ha : Receiver.Allows near e) :
    ∃ m, Reaches near far n m ∧ m.receiver = (n.receiver.step e).1 ∧ m.sender = n.sender := by
  have hfirst : n.step near far (.receiver e) = n.receive e := by
    simp only [Network.step]
    rw [if_pos ha]
  refine ⟨_,(Reaches.refl.step (.receiver e)).run
    ((Waiting.ready (n.receiver.react e).1.waiting).map .recover),?_⟩
  rw [hfirst]
  exact run_recover near far _ (n.receive e)

def said (c : ConnRef) (log : List Note) : List Connection.Deed := log.filterMap fun
  | .conn d deed => if d = c then some deed else none
  | _ => none

def done (log : List Note) : List Registry.Deed := log.filterMap fun
  | .registry deed => some deed
  | _ => none

@[simp] theorem said_nil (c : ConnRef) : said c [] = [] := rfl

@[simp] theorem done_nil : done [] = [] := rfl

@[simp] theorem said_append (c : ConnRef) (log more : List Note) :
    said c (log ++ more) = said c log ++ said c more :=
  List.filterMap_append

@[simp] theorem done_append (log more : List Note) : done (log ++ more) = done log ++ done more :=
  List.filterMap_append

@[simp] theorem said_registry (c : ConnRef) (ds : List Registry.Deed) :
    said c (ds.map .registry) = [] := by
  induction ds with
  | nil => rfl
  | cons _ _ ih => exact ih

@[simp] theorem done_registry (ds : List Registry.Deed) : done (ds.map .registry) = ds := by
  induction ds with
  | nil => rfl
  | cons _ _ ih => exact congrArg (_ :: ·) ih

@[simp] theorem said_ofEvent (c : ConnRef) (s : Sender) (e : Sender.Event) :
    said c (Note.ofEvent s e) = [] := by
  cases e with
  | send id data =>
    simp only [Note.ofEvent]
    cases s.established id with
    | none => rfl
    | some e => rfl
  | _ => rfl

@[simp] theorem done_ofEvent (s : Sender) (e : Sender.Event) : done (Note.ofEvent s e) = [] := by
  cases e with
  | send id data =>
    simp only [Note.ofEvent]
    cases s.established id with
    | none => rfl
    | some e => rfl
  | _ => rfl

theorem said_ofOutput (c : ConnRef) (os : List Sender.Output) :
    said c (os.map Note.ofOutput) = Sender.said c os := by
  induction os with
  | nil => rfl
  | cons o os ih =>
    cases o with
    | send d frame =>
      rw [Sender.said_cons_send,← ih]
      by_cases hd : d = c <;> simp [said,Note.ofOutput,hd]
    | finish k result => exact ih

theorem said_ofPushes (c : ConnRef) (k : CallId) (s t : Sender) (subject : Option ConnRef) :
    said c (Note.ofPushes k s t subject) = Sender.addedOn k subject c s t := by
  cases subject with
  | none => rfl
  | some d =>
    simp only [Sender.addedOn,Sender.added,said,Note.ofPushes,List.filterMap_map,Function.comp_def]
    by_cases hd : d = c
    · subst hd
      simp
    · simp [hd]

@[simp] theorem said_ofCall (c : ConnRef) (k : CallId) (subject : Option ConnRef) (s t : Sender)
    (os : List Sender.Output) :
    said c (Note.ofCall k subject s t os) =
      Sender.addedOn k subject c s t ++ Sender.said c os := by
  rw [Note.ofCall,said_append,said_ofOutput,said_ofPushes]

@[simp] theorem done_ofCall (k : CallId) (subject : Option ConnRef) (s t : Sender)
    (os : List Sender.Output) : done (Note.ofCall k subject s t os) = [] := by
  have ho : done (os.map Note.ofOutput) = [] := by
    induction os with
    | nil => rfl
    | cons o os ih =>
      cases o with
      | send d frame => exact ih
      | finish k result => exact ih
  rw [Note.ofCall,done_append,ho,List.append_nil]
  cases subject with
  | none => rfl
  | some d =>
    refine List.filterMap_eq_nil_iff.mpr fun note hm => ?_
    obtain ⟨piece,_,rfl⟩ := List.mem_map.mp hm
    rfl

theorem mem_said {c : ConnRef} {log : List Note} {deed : Connection.Deed}
    (h : .conn c deed ∈ log) : deed ∈ said c log := by
  refine List.mem_filterMap.mpr ⟨_,h,?_⟩
  simp

theorem mem_done {log : List Note} {deed : Registry.Deed} (h : .registry deed ∈ log) :
    deed ∈ done log :=
  List.mem_filterMap.mpr ⟨_,h,rfl⟩

def here : Address := ⟨.localhost,0,4001⟩

def there : Address := ⟨.localhost,0,4002⟩

def usual : Network := start ⟨.ofMillis 10000,.ofMillis 2000,.ofMillis 1500⟩ Config.standard.receiver

def handshake : List Move :=
  [.sender (.connect here there none 0),.forth 0 none,.receiver .acceptOne,.back 1 0 none 1,
    .resume 0]

end Network
end ReliableTransport
