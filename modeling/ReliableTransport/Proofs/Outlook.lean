import ReliableTransport.Proofs.Bystanders

/-! What a receiver makes of a datagram, told from what it sees of the address alone. The outlook on
an address is its record and its readers, or that it waits, or that it is not there (`Outlook`). It
decides what the receiver answers and what effect the datagram has (`respond`,
`onDatagram_eq`), also when the readers are served at once (`step_eq`), and nothing that other
addresses do changes it (`Beside.outlook_eq`). -/
namespace ReliableTransport
namespace Receiver

variable {r t : Receiver} {a b : Address} {raw : Bytes} {p : PeerId} {x : Peer}

def Call.reads (p : PeerId) : Call → Bool
  | .read q _ => q = p
  | .accept => false

def Call.reader (p : PeerId) (w : Waiting Call) : Option (CallId × Nat) :=
  match w.call with
  | .read q room => if q = p then some (w.id,room) else none
  | .accept => none

def readers (r : Receiver) (p : PeerId) : List (CallId × Nat) :=
  r.waiting.filterMap (Call.reader p)

/-- What a receiver sees of an address. -/
inductive Outlook
  | connected (p : PeerId) (x : Peer) (readers : List (CallId × Nat))
  | waiting
  | away

def outlook (r : Receiver) (a : Address) : Outlook :=
  match r.registry.connected.get? a with
  | some p =>
    match r.registry.peers[p]? with
    | some x => .connected p x (r.readers p)
    | none => .away
  | none => if (r.registry.pending.get? a).isSome then .waiting else .away

theorem outlook_connected (hc : r.registry.connected.get? a = some p)
    (hx : r.registry.peers[p]? = some x) : r.outlook a = .connected p x (r.readers p) := by
  simp only [outlook,hc,hx]

theorem of_outlook_connected (hs : r.Sound) {readers : List (CallId × Nat)}
    (ho : r.outlook a = .connected p x readers) :
    r.registry.peers[p]? = some x ∧ x.addr = a ∧ x.closed = false ∧ readers = r.readers p := by
  cases hc : r.registry.connected.get? a with
  | none =>
    simp only [outlook,hc] at ho
    split at ho <;> cases ho
  | some q =>
    obtain ⟨z,hz,hza,hcl⟩ := hs.registry.connected a q hc
    rw [outlook_connected hc hz] at ho
    obtain ⟨rfl,rfl,rfl⟩ := Outlook.connected.inj ho
    exact ⟨hz,hza,hcl,rfl⟩

theorem readers_eq_filter (hx : r.registry.peers[p]? = some x) (hb : x.addr ≠ b)
    (ws : List (Waiting Call)) :
    ws.filterMap (Call.reader p) =
      (ws.filter fun w => r.foreign b w.call).filterMap (Call.reader p) := by
  rw [List.filterMap_filter]
  refine List.filterMap_congr fun w _ => ?_
  split
  · rfl
  · rename_i hf
    unfold Call.reader
    split
    · rename_i q room hcall
      by_cases hq : q = p
      · subst hq
        rw [hcall,foreign_read_iff] at hf
        exact absurd ⟨x,hx,hb⟩ hf
      · rw [if_neg hq]
    · rfl

/-- What the address `b` does is not seen of another. -/
theorem Beside.outlook_eq (h : Beside b r t) (hs : r.Sound) (hab : a ≠ b) :
    t.outlook a = r.outlook a := by
  have hconn := Dict.get?_of_erase h.registry.connected hab
  cases hc : r.registry.connected.get? a with
  | some p =>
    obtain ⟨x,hx,hxa,_⟩ := hs.registry.connected a p hc
    have hne : x.addr ≠ b := by rwa [hxa]
    have hsame := (h.registry.peers p x hne).mpr hx
    rw [outlook_connected hc hx,outlook_connected (hconn.trans hc) hsame]
    rw [readers,readers_eq_filter hx hne,h.waiting,← readers_eq_filter hx hne,readers]
  | none =>
    simp only [outlook,hc,hconn,Dict.get?_of_erase h.registry.pending hab]

inductive Effect
  | rest
  | enlist (x : Peer)
  | amend (p : PeerId) (y : Peer) (woken : Bool) (done : List CallId)
  | drop

def Effect.apply (a : Address) (r : Receiver) : Effect → Receiver
  | .rest => r
  | .enlist x =>
    { r with registry := r.registry.enlist a x }.wakeAccepts
  | .amend p y woken done =>
    { r with
      registry := r.registry.modify p fun _ => y
      waiting := Waiting.wake (r.waiting.filter fun w => w.id ∉ done) fun c => woken && c.reads p }
  | .drop => { r with registry := r.registry.leave a }

structure Served where
  inbox : Inbox
  woken : Bool
  done : List (CallId × Bytes)

def rouse (b : Inbox) (_ : List (CallId × Nat)) : Served := ⟨b,true,[]⟩

/-- The readers are given what there is, one after the other. -/
def serve : Inbox → List (CallId × Nat) → Served
  | b, [] => ⟨b,false,[]⟩
  | b, (k,room) :: rest =>
    if b.unread = [] then serve b rest
    else
      let later := serve (b.read room).2 rest
      { later with done := (k,(b.read room).1) :: later.done }

theorem serve_woken (b : Inbox) (todo : List (CallId × Nat)) : (serve b todo).woken = false := by
  fun_induction serve b todo with
  | case1 => rfl
  | case2 b k room rest _ ih => exact ih
  | case3 b k room rest _ later ih => exact ih

def intake (a : Address) (p : PeerId) (x : Peer) (inbox : Inbox) (served : Served) :
    Effect × List Output :=
  (.amend p { x with inbox := served.inbox, silence := x.silence.reset } served.woken
      (served.done.map (·.1)),
    .send a (reply .adat inbox.lastAccepted inbox.window) ::
      served.done.map fun e => .finish e.1 (.bytes e.2))

/-- What a receiver makes of a frame from an address it sees like this, and what comes out. -/
def respond (take : Inbox → List (CallId × Nat) → Served) (settings : Settings) (a : Address)
    (frame : Frame) : Outlook → Effect × List Output
  | .connected p x readers =>
    match frame.kind with
    | .rcon => (.rest,[.send a (reply .acon x.inbox.lastAccepted x.inbox.window)])
    | .data =>
      if x.closing then (.rest,[])
      else
        match x.inbox.offer frame.fragment frame.payload with
        | none =>
          (.amend p { x with silence := x.silence.reset } false [],
            [.send a (reply .adat x.inbox.lastAccepted x.inbox.window)])
        | some inbox => intake a p x inbox (take inbox readers)
    | .rcls => (.amend p x.requestClose false [],[.send a (reply .acls 0 0)])
    | _ => (.rest,[])
  | .waiting => if frame.kind = .rcls then (.drop,[]) else (.rest,[])
  | .away =>
    if frame.kind = .rcon ∧ settings.admits then
      (.enlist (.start a frame.fragment settings.capacity settings.threshold),[])
    else (.rest,[])

def hear (take : Inbox → List (CallId × Nat) → Served) (r : Receiver) (a : Address)
    (raw : Bytes) : Effect × List Output :=
  if r.closing then (.rest,[])
  else
    match Frame.receive raw with
    | .error _ => (.rest,[])
    | .ok frame => respond take r.settings a frame (r.outlook a)

theorem Beside.hear_eq (h : Beside b r t) (hs : r.Sound) (hab : a ≠ b)
    (take : Inbox → List (CallId × Nat) → Served) (raw : Bytes) :
    t.hear take a raw = r.hear take a raw := by
  simp only [hear,h.closing,h.settings,h.outlook_eq hs hab]

theorem wakeReads_eq (r : Receiver) (p : PeerId) :
    r.wakeReads p = { r with waiting := Waiting.wake r.waiting (Call.reads p) } := rfl

theorem wake_never (ws : List (Waiting Call)) : Waiting.wake ws (fun _ => false) = ws := by
  rw [Waiting.wake]
  exact (List.map_congr_left fun w _ => by simp).trans (List.map_id ws)

theorem apply_amend (r : Receiver) (a : Address) (p : PeerId) (y : Peer) :
    (Effect.amend p y false []).apply a r = r.modify p fun _ => y := by
  simp [Effect.apply,modify,wake_never]

theorem modify_const (hx : r.registry.peers[p]? = some x) (f : Peer → Peer) :
    r.modify p f = r.modify p fun _ => f x := by
  have hpeers : r.registry.peers.modify p f = r.registry.peers.modify p fun _ => f x := by
    refine List.ext_getElem? fun q => ?_
    by_cases hq : p = q
    · subst hq
      simp [hx]
    · rw [List.getElem?_modify_ne _ _ hq,List.getElem?_modify_ne _ _ hq]
  simp only [modify,Registry.modify,hpeers]

def dispatch (r : Receiver) (a : Address) (frame : Frame) : Receiver × List Output :=
  match frame.kind with
  | .rcon => r.onConnect a frame.fragment
  | .data => r.onData a frame.fragment frame.payload
  | .rcls => r.onClose a
  | _ => (r,[])

theorem dispatch_connected (hc : r.registry.connected.get? a = some p)
    (hx : r.registry.peers[p]? = some x) (frame : Frame) :
    r.dispatch a frame = ((respond rouse r.settings a frame (r.outlook a)).1.apply a r,
      (respond rouse r.settings a frame (r.outlook a)).2) := by
  rw [outlook_connected hc hx]
  unfold dispatch respond
  cases frame.kind with
  | rcon =>
    have hst : r.registry.state a = .connected := by simp [Registry.state,hc]
    simp [onConnect,hst,hc,hx,Effect.apply]
  | data =>
    cases hcl : x.closing with
    | true => simp [onData_of_closing hc hx hcl,hcl,Effect.apply]
    | false =>
      cases ho : x.inbox.offer frame.fragment frame.payload with
      | none =>
        rw [onData_of_refused hc hx hcl ho,modify_const hx]
        simp [hcl,ho,apply_amend]
      | some inbox =>
        rw [onData_of_taken hc hx hcl ho,modify_const hx]
        simp [hcl,ho,rouse,intake,Effect.apply,wakeReads_eq,modify]
  | rcls =>
    simp only [onClose,hc]
    rw [modify_const hx,apply_amend]
  | unkn | acon | adat | acls => rfl

theorem dispatch_waiting (hc : r.registry.connected.get? a = none)
    (hp : r.registry.pending.get? a = some p) (frame : Frame) :
    r.dispatch a frame = ((respond rouse r.settings a frame (r.outlook a)).1.apply a r,
      (respond rouse r.settings a frame (r.outlook a)).2) := by
  have hout : r.outlook a = .waiting := by simp [outlook,hc,hp]
  rw [hout]
  unfold dispatch respond
  cases frame.kind with
  | rcon =>
    have hst : r.registry.state a = .pending := by simp [Registry.state,hc,hp]
    simp [onConnect,hst,Effect.apply]
  | data => simp [onData_of_none hc,Effect.apply]
  | rcls => simp [onClose,hc,Registry.removePending,hp,Effect.apply,Registry.leave]
  | unkn | acon | adat | acls => simp [Effect.apply]

theorem dispatch_away (hc : r.registry.connected.get? a = none)
    (hp : r.registry.pending.get? a = none) (frame : Frame) :
    r.dispatch a frame = ((respond rouse r.settings a frame (r.outlook a)).1.apply a r,
      (respond rouse r.settings a frame (r.outlook a)).2) := by
  have hout : r.outlook a = .away := by simp [outlook,hc,hp]
  rw [hout]
  unfold dispatch respond
  cases frame.kind with
  | rcon =>
    have hst : r.registry.state a = .unseen ∨ r.registry.state a = .closed := by
      cases hr : r.registry.retired.get? a <;> simp [Registry.state,hc,hp,hr]
    cases hadm : r.settings.admits with
    | true =>
      rcases hst with hst | hst <;>
        simp [onConnect,hst,hadm,Effect.apply,Registry.register,Registry.enlist]
    | false => rcases hst with hst | hst <;> simp [onConnect,hst,hadm,Effect.apply]
  | data => simp [onData_of_none hc,Effect.apply]
  | rcls => simp [onClose,hc,Registry.removePending,hp,Effect.apply]
  | unkn | acon | adat | acls => simp [Effect.apply]

/-- What a receiver sees of an address decides what it makes of a datagram. -/
theorem onDatagram_eq (hs : r.Sound) (a : Address) (raw : Bytes) :
    r.onDatagram a raw = ((r.hear rouse a raw).1.apply a r,(r.hear rouse a raw).2) := by
  unfold onDatagram hear
  split
  · rfl
  · cases hf : Frame.receive raw with
    | error e => rfl
    | ok frame =>
      show r.dispatch a frame = _
      cases hc : r.registry.connected.get? a with
      | some p =>
        obtain ⟨x,hx,_⟩ := hs.registry.connected a p hc
        exact dispatch_connected hc hx frame
      | none =>
        cases hp : r.registry.pending.get? a with
        | some p => exact dispatch_waiting hc hp frame
        | none => exact dispatch_away hc hp frame

theorem ready?_of_mem {ws : List (Waiting Call)} (hn : (ws.map (·.id)).Nodup) {w : Waiting Call}
    (hw : w ∈ ws) (hwoken : w.woken = true) : Waiting.ready? ws w.id = some w.call := by
  cases hr : Waiting.ready? ws w.id with
  | none =>
    rw [Waiting.ready?,Option.map_eq_none_iff,List.find?_eq_none] at hr
    exact absurd (hr w hw) (by simp [hwoken])
  | some call =>
    obtain ⟨v,hv,hid,rfl,_⟩ := Waiting.awake_of_ready? hr
    obtain rfl := List.inj_on_of_nodup_map hn hv hw hid
    rfl

/-- The receiver while readers of the record `p`, which has become `y`, try again: those in `todo`
are still to do so, and those in `done` wait no more. -/
def stage (r : Receiver) (p : PeerId) (y : Peer) (todo done : List CallId) : Receiver :=
  { r with
    registry := r.registry.modify p fun _ => y
    waiting := (r.waiting.filter fun w => w.id ∉ done).map fun w =>
      { w with woken := w.id ∈ todo } }

section

variable {y : Peer} {todo done : List CallId} {k : CallId} {room : Nat}

theorem stage_ids (hn : r.Numbered) (p : PeerId) (y : Peer) (todo done : List CallId) :
    ((r.stage p y todo done).waiting.map (·.id)).Nodup := by
  have hids : (r.stage p y todo done).waiting.map (·.id) =
      (r.waiting.filter fun w => w.id ∉ done).map (·.id) := by
    simp [stage,Function.comp_def]
  rw [hids]
  exact hn.nodup.sublist (List.filter_sublist.map _)

theorem settle_answered (r : Receiver) (p : PeerId) (y z : Peer) (k : CallId)
    (todo done : List CallId) (result : Result) :
    Waiting.settle (r.stage p y (k :: todo) done).waiting k
        (.answer result : Outcome Call Result) =
      (r.stage p z todo (done ++ [k])).waiting := by
  simp only [Waiting.settle,stage,List.filter_map,List.filter_filter]
  have hfilter : (r.waiting.filter fun w => decide (w.id ∉ done ++ [k])) =
      r.waiting.filter fun w => decide (w.id ≠ k) && decide (w.id ∉ done) := by
    refine List.filter_congr fun w _ => ?_
    rw [← Bool.decide_and,decide_eq_decide,List.mem_append,List.mem_singleton,not_or,and_comm]
  rw [hfilter]
  refine List.map_congr_left fun w hw => ?_
  have hne : w.id ≠ k := by
    have hp := (List.mem_filter.mp hw).2
    simp only [Function.comp_apply,Bool.and_eq_true,decide_eq_true_eq] at hp
    exact hp.1
  simp [hne]

theorem settle_waits (hn : r.Numbered) (p : PeerId) (y : Peer) (done : List CallId) (hk : k ∉ todo)
    {call : Call} (hw : (⟨k,call,false⟩ : Waiting Call) ∈ r.waiting) :
    Waiting.settle (r.stage p y (k :: todo) done).waiting k (.wait call : Outcome Call Result) =
      (r.stage p y todo done).waiting := by
  simp only [Waiting.settle,stage,List.map_map]
  refine List.map_congr_left fun w hm => ?_
  by_cases hid : w.id = k
  · obtain rfl := List.inj_on_of_nodup_map hn.nodup (List.mem_filter.mp hm).1 hw hid
    simp [hk]
  · simp [hid]

theorem poll_stage (hn : r.Numbered) (hopen : r.closing = false)
    (hx : r.registry.peers[p]? = some x) (hy : y.closed = false)
    (hw : (⟨k,.read p room,false⟩ : Waiting Call) ∈ r.waiting) (hroom : 0 < room)
    (hk : k ∉ todo) (hd : k ∉ done) :
    (r.stage p y (k :: todo) done).poll k =
      if y.inbox.unread = [] then (r.stage p y todo done,[])
      else (r.stage p { y with inbox := (y.inbox.read room).2 } todo (done ++ [k]),
        [.finish k (.bytes (y.inbox.read room).1)]) := by
  have hr : Waiting.ready? (r.stage p y (k :: todo) done).waiting k = some (.read p room) := by
    refine ready?_of_mem (w := ⟨k,.read p room,true⟩) (stage_ids hn p y _ done) ?_ rfl
    refine List.mem_map.mpr ⟨_,List.mem_filter.mpr ⟨hw,by simpa using hd⟩,?_⟩
    simp
  have hat : (r.stage p y (k :: todo) done).registry.peers[p]? = some y :=
    Registry.peers_modify_self hx
  have hclosing : ¬ (r.stage p y (k :: todo) done).closing = true := by simp [stage,hopen]
  rw [poll,hr]
  simp only [attempt_read hat hroom]
  by_cases hu : y.inbox.unread = []
  · rw [if_pos hu,if_neg (by simp [hu]),if_neg (by simp [hy]),if_neg hclosing]
    have hwait := settle_waits hn p y done hk hw
    simp only [hwait]
    rfl
  · rw [if_neg hu,if_pos hu]
    have hanswer := settle_answered r p y { y with inbox := (y.inbox.read room).2 } k todo done
      (.bytes (y.inbox.read room).1)
    have hreg : (r.registry.modify p fun _ => y).modify p (fun peer =>
        { peer with inbox := (y.inbox.read room).2 }) =
        r.registry.modify p fun _ => { y with inbox := (y.inbox.read room).2 } := by
      simp [Registry.modify,List.modify_modify_eq,Function.comp_def]
    simp only [modify,hanswer]
    simp only [stage,hreg,List.nil_append]

/-- The readers try again one after the other, and each is given what is left. -/
theorem chain_stage (hn : r.Numbered) (hopen : r.closing = false)
    (hx : r.registry.peers[p]? = some x) {todo : List (CallId × Nat)} {done : List CallId}
    (hy : y.closed = false) (hnd : (todo.map (·.1)).Nodup)
    (hw : ∀ e ∈ todo, (⟨e.1,.read p e.2,false⟩ : Waiting Call) ∈ r.waiting ∧ 0 < e.2 ∧
      e.1 ∉ done) :
    chain poll (r.stage p y (todo.map (·.1)) done) (todo.map (·.1)) =
      (r.stage p { y with inbox := (serve y.inbox todo).inbox } []
          (done ++ (serve y.inbox todo).done.map (·.1)),
        (serve y.inbox todo).done.map fun e => .finish e.1 (.bytes e.2)) := by
  induction todo generalizing y done with
  | nil => simp [serve]
  | cons e todo ih =>
    obtain ⟨k,room⟩ := e
    rw [List.map_cons] at hnd ⊢
    obtain ⟨hk,hnd⟩ := List.nodup_cons.mp hnd
    obtain ⟨hm,hroom,hd⟩ := hw _ List.mem_cons_self
    have hrest : ∀ e ∈ todo, (⟨e.1,.read p e.2,false⟩ : Waiting Call) ∈ r.waiting ∧ 0 < e.2 ∧
        e.1 ∉ done := fun e he => hw e (List.mem_cons_of_mem _ he)
    rw [chain_cons,poll_stage hn hopen hx hy hm hroom hk hd]
    by_cases hu : y.inbox.unread = []
    · rw [if_pos hu,ih hy hnd hrest,serve,if_pos hu]
      rfl
    · have hmore : ∀ e ∈ todo, (⟨e.1,.read p e.2,false⟩ : Waiting Call) ∈ r.waiting ∧ 0 < e.2 ∧
          e.1 ∉ done ++ [k] := by
        intro e he
        obtain ⟨hm,hroom,hd⟩ := hrest e he
        refine ⟨hm,hroom,fun hin => ?_⟩
        rcases List.mem_append.mp hin with hin | hin
        · exact hd hin
        · exact hk (List.mem_map.mpr ⟨e,he,List.mem_singleton.mp hin⟩)
      have hlater := ih (y := { y with inbox := (y.inbox.read room).2 }) hy hnd hmore
      rw [if_neg hu,serve,if_neg hu]
      simp only [hlater,List.map_cons,List.append_assoc,List.singleton_append]

end

def Effect.Quiet : Effect → Prop
  | .amend _ _ woken _ => woken = false
  | _ => True

theorem respond_cases (settings : Settings) (a : Address) (frame : Frame) (o : Outlook) :
    ((∀ take, respond take settings a frame o = respond serve settings a frame o) ∧
        (respond serve settings a frame o).1.Quiet) ∨
      ∃ p x readers inbox, o = .connected p x readers ∧
        ∀ take, respond take settings a frame o = intake a p x inbox (take inbox readers) := by
  unfold respond
  cases o with
  | connected p x readers =>
    cases frame.kind with
    | data =>
      cases hcl : x.closing with
      | true => exact .inl ⟨fun _ => by simp [hcl],by simp [hcl,Effect.Quiet]⟩
      | false =>
        cases ho : x.inbox.offer frame.fragment frame.payload with
        | none => exact .inl ⟨fun _ => by simp [hcl,ho],by simp [hcl,ho,Effect.Quiet]⟩
        | some inbox => exact .inr ⟨p,x,readers,inbox,rfl,fun _ => by simp [hcl,ho]⟩
    | rcls => exact .inl ⟨fun _ => rfl,rfl⟩
    | rcon | unkn | acon | adat | acls => exact .inl ⟨fun _ => rfl,trivial⟩
  | waiting =>
    refine .inl ⟨fun _ => rfl,?_⟩
    simp only
    split <;> trivial
  | away =>
    refine .inl ⟨fun _ => rfl,?_⟩
    simp only
    split <;> trivial

/-- No call waits for somebody to accept. -/
def Unattended (r : Receiver) : Prop := ∀ w ∈ r.waiting, w.call ≠ .accept

theorem Asleep.apply (h : r.Asleep) (hno : r.Unattended) (a : Address) {e : Effect} (he : e.Quiet) :
    (e.apply a r).Asleep := by
  cases e with
  | rest => exact h
  | enlist x =>
    intro w hw
    obtain ⟨v,hv,rfl⟩ := List.mem_map.mp hw
    simp [h v hv,hno v hv]
  | amend p y woken done =>
    obtain rfl : woken = false := he
    intro w hw
    simp only [Effect.apply,Bool.false_and,wake_never] at hw
    exact h w (List.mem_filter.mp hw).1
  | drop => exact h

theorem mem_readers {e : CallId × Nat} (ha : r.Asleep) (he : e ∈ r.readers p) :
    (⟨e.1,.read p e.2,false⟩ : Waiting Call) ∈ r.waiting := by
  obtain ⟨w,hw,hr⟩ := List.mem_filterMap.mp he
  unfold Call.reader at hr
  split at hr
  · rename_i q room hc
    split at hr
    · rename_i hq
      subst hq
      obtain rfl := Option.some.inj hr
      have hwe : w = ⟨w.id,.read q room,false⟩ := by rw [← hc,← ha w hw]
      rwa [← hwe]
    · cases hr
  · cases hr

theorem readers_ids (r : Receiver) (p : PeerId) :
    (r.readers p).map (·.1) = (r.waiting.filter fun w => w.call.reads p).map (·.id) := by
  rw [readers,List.map_filterMap,← List.filterMap_eq_map,List.filterMap_filter]
  refine List.filterMap_congr fun w _ => ?_
  unfold Call.reader
  split
  · rename_i q room hc
    rw [hc]
    by_cases hq : q = p
    · simp [Call.reads,hq]
    · simp [Call.reads,hq]
  · rename_i hc
    rw [hc]
    rfl

theorem ready_wake (ws : List (Waiting Call)) (concerns : Call → Bool) :
    Waiting.ready (Waiting.wake ws concerns) =
      (ws.filter fun w => w.woken || concerns w.call).map (·.id) := by
  simp only [Waiting.ready,Waiting.wake,List.filter_map,List.map_map]
  rfl

theorem apply_woken (hn : r.Numbered) (ha : r.Asleep) (a : Address) (p : PeerId) (y : Peer) :
    (Effect.amend p y true []).apply a r = r.stage p y ((r.readers p).map (·.1)) [] ∧
      Waiting.ready ((Effect.amend p y true []).apply a r).waiting = (r.readers p).map (·.1) := by
  have hwaiting : ((Effect.amend p y true []).apply a r).waiting =
      Waiting.wake r.waiting (Call.reads p) := by
    simp only [Effect.apply,List.not_mem_nil,not_false_eq_true,decide_true,List.filter_true,
      Bool.true_and]
  refine ⟨?_,?_⟩
  · have hstage : (r.stage p y ((r.readers p).map (·.1)) []).waiting =
        Waiting.wake r.waiting (Call.reads p) := by
      simp only [stage,List.not_mem_nil,not_false_eq_true,decide_true,List.filter_true]
      refine List.map_congr_left fun w hw => ?_
      have hmem : w.id ∈ (r.readers p).map (·.1) ↔ w.call.reads p = true := by
        rw [readers_ids,List.mem_map]
        constructor
        · rintro ⟨v,hv,hid⟩
          obtain ⟨hv,hreads⟩ := List.mem_filter.mp hv
          obtain rfl := List.inj_on_of_nodup_map hn.nodup hv hw hid
          exact hreads
        · exact fun hreads => ⟨w,List.mem_filter.mpr ⟨hw,hreads⟩,rfl⟩
      simp [hmem,ha w hw]
    show ({ r with
        registry := r.registry.modify p fun _ => y
        waiting := ((Effect.amend p y true []).apply a r).waiting } : Receiver) =
      { r with
        registry := r.registry.modify p fun _ => y
        waiting := (r.stage p y ((r.readers p).map (·.1)) []).waiting }
    rw [hwaiting,hstage]
  · rw [hwaiting,ready_wake,readers_ids]
    refine congrArg _ (List.filter_congr fun w hw => ?_)
    rw [ha w hw,Bool.false_or]

theorem stage_nil (ha : r.Asleep) (a : Address) (p : PeerId) (y : Peer) (done : List CallId) :
    r.stage p y [] done = (Effect.amend p y false done).apply a r := by
  have hsame : (r.waiting.filter fun w => w.id ∉ done).map (fun w => { w with woken := false }) =
      r.waiting.filter fun w => w.id ∉ done := by
    refine (List.map_congr_left fun w hw => ?_).trans (List.map_id _)
    rw [← ha w (List.mem_filter.mp hw).1]
    rfl
  simp only [stage,Effect.apply,Bool.false_and,wake_never,List.not_mem_nil,decide_false,hsame]

/-- How the readers are served matters only to data of a connected record that is taken. -/
theorem hear_cases (hs : r.Sound) (a : Address) (raw : Bytes) :
    ((∀ take, r.hear take a raw = r.hear serve a raw) ∧ (r.hear serve a raw).1.Quiet) ∨
      ∃ p x inbox, r.closing = false ∧ r.registry.peers[p]? = some x ∧ x.closed = false ∧
        ∀ take, r.hear take a raw = intake a p x inbox (take inbox (r.readers p)) := by
  unfold hear
  cases hopen : r.closing with
  | true => exact .inl ⟨fun _ => rfl,trivial⟩
  | false =>
    cases hf : Frame.receive raw with
    | error e => exact .inl ⟨fun _ => rfl,trivial⟩
    | ok frame =>
      simp only [Bool.false_eq_true,if_false]
      rcases respond_cases r.settings a frame (r.outlook a) with h | ⟨p,x,readers,inbox,ho,htake⟩
      · exact .inl h
      · obtain ⟨hx,_,hcl,rfl⟩ := of_outlook_connected hs ho
        exact .inr ⟨p,x,inbox,trivial,hx,hcl,htake⟩

/-- What a receiver sees of an address decides all that comes of a datagram, if nobody waits to
accept. -/
theorem step_eq (hs : r.Sound) (hn : r.Numbered) (ha : r.Asleep) (hno : r.Unattended) (a : Address)
    (raw : Bytes) :
    r.step (.datagram a raw) = ((r.hear serve a raw).1.apply a r,(r.hear serve a raw).2) := by
  show ((r.onDatagram a raw).1.settle.1,(r.onDatagram a raw).2 ++ (r.onDatagram a raw).1.settle.2) =
    _
  rw [onDatagram_eq hs]
  rcases hear_cases hs a raw with ⟨hsame,hquiet⟩ | ⟨p,x,inbox,hopen,hx,hcl,htake⟩
  · rw [hsame rouse]
    simp only [settle_of_asleep (ha.apply hno a hquiet),List.append_nil]
  · have hready : ∀ e ∈ r.readers p, (⟨e.1,.read p e.2,false⟩ : Waiting Call) ∈ r.waiting ∧
        0 < e.2 ∧ e.1 ∉ ([] : List CallId) := fun e he =>
      ⟨mem_readers ha he,hs.room _ (mem_readers ha he) p e.2 rfl,List.not_mem_nil⟩
    have hids : ((r.readers p).map (·.1)).Nodup := by
      rw [readers_ids]
      exact hn.nodup.sublist (List.filter_sublist.map _)
    rw [htake rouse,htake serve]
    simp only [intake,rouse,List.map_nil]
    obtain ⟨hwoken,hready'⟩ := apply_woken hn ha a p
      { x with inbox := inbox, silence := x.silence.reset }
    have hserved := chain_stage (y := { x with inbox := inbox, silence := x.silence.reset })
      hn hopen hx hcl hids hready
    rw [settle,hready',hwoken,hserved,stage_nil ha a,serve_woken]
    rfl

end Receiver
end ReliableTransport
