import ReliableTransport.Proofs.Conduct

/-! What comes out of a sender for one of its connections, and what one try of a call comes to. What
is sent from a connection and what is pushed on it is what the connection does in turns (`Plays`);
that a sender has its connections do nothing else is shown with the strokes they are made of. -/
namespace ReliableTransport
namespace Sender

open Connection

/-- The frames of one connection among what comes out of a sender. -/
def said (c : ConnRef) (os : List Output) : List Deed := os.filterMap fun
  | .send d frame => if d = c then some (.sent frame) else none
  | .finish _ _ => none

@[simp] theorem said_nil (c : ConnRef) : said c [] = [] := rfl

@[simp] theorem said_append (c : ConnRef) (os ps : List Output) :
    said c (os ++ ps) = said c os ++ said c ps :=
  List.filterMap_append

@[simp] theorem said_finish (c : ConnRef) (k : CallId) (result : Result) :
    said c [.finish k result] = [] := rfl

@[simp] theorem said_cons_send (c d : ConnRef) (frame : Frame) (os : List Output) :
    said c (.send d frame :: os) = (if d = c then [.sent frame] else []) ++ said c os := by
  by_cases h : d = c <;> simp [said,h]

theorem said_map (c d : ConnRef) (frames : List Frame) :
    said c (frames.map (.send d)) = if d = c then frames.map .sent else [] := by
  induction frames with
  | nil => exact (ite_self _).symm
  | cons frame frames ih =>
    rw [List.map_cons,said_cons_send,ih]
    split
    · rfl
    · rfl

def slots (s : Sender) (c : ConnRef) : List Bytes := (s.conns[c]?.map (·.outbox.slots)).getD []

def grown (s t : Sender) (c : ConnRef) : List Bytes := (t.slots c).drop (s.slots c).length

def Hears (s : Sender) (e : Event) (c : ConnRef) (frame : Frame) : Prop :=
  ∃ source raw now, e = .datagram c source raw now ∧ Frame.receive raw = .ok frame ∧
    ∀ x, s.conns[c]? = some x → source = x.remote

def Asking (s : Sender) (c : ConnRef) : Prop := ∃ w ∈ s.waiting, w.call = .connect c

/-- From `s` to `t` a connection takes turns, and does `ds` in them. -/
def Plays (hears : Frame → Prop) (asking : Prop) (threshold : Nat) (c : ConnRef) (s t : Sender)
    (ds : List Deed) : Prop :=
  ∀ x, s.conns[c]? = some x →
    ∃ y, t.conns[c]? = some y ∧ Turns hears asking threshold x ds y

section

variable {hears : Frame → Prop} {asking : Prop} {threshold : Nat} {c : ConnRef} {s t : Sender}

theorem plays_of_eq (h : t.conns[c]? = s.conns[c]?) : Plays hears asking threshold c s t [] :=
  fun x hx => ⟨x,h.trans hx,.done⟩

theorem conns_modify_self {x : Connection} (hx : s.conns[c]? = some x)
    (f : Connection → Connection) : (s.modify c f).conns[c]? = some (f x) := by
  simp [modify,hx]

@[simp] theorem conns_wakeCalls (s : Sender) (d : ConnRef) : (s.wakeCalls d).conns = s.conns := rfl

end

/-- What a call may count on: a connection it sends on or leaves has been accepted, and its pieces
fit into frames. -/
def Call.Proper (s : Sender) : Call → Prop
  | .connect _ => True
  | .send c rest _ =>
    (∀ x, s.conns[c]? = some x → x.outbox.established = true) ∧ ∀ piece ∈ rest, Sized piece
  | .disconnect c => ∀ x, s.conns[c]? = some x → x.outbox.established = true

def Call.Sized : Call → Prop
  | .send _ rest _ => ∀ piece ∈ rest, Connection.Sized piece
  | _ => True

def added (k : CallId) (d c : ConnRef) (s t : Sender) : List Deed :=
  if d = c then (grown s t c).map (.pushed k) else []

theorem grown_of_eq {s t : Sender} {c : ConnRef} (h : t.conns[c]? = s.conns[c]?) :
    grown s t c = [] := by
  simp [grown,slots,h]

theorem added_of_eq {s t : Sender} {d c : ConnRef} (k : CallId)
    (h : t.conns[c]? = s.conns[c]?) : added k d c s t = [] := by
  unfold added
  split
  · rw [grown_of_eq h]
    rfl
  · rfl

theorem added_congr {s t u : Sender} {d c : ConnRef} (k : CallId) (h : u.conns = t.conns) :
    added k d c s u = added k d c s t := by
  simp [added,grown,slots,h]

section

variable {c : ConnRef}

/-- What a try of a call to send comes to, unless the connection was torn down before all pieces
were pushed. -/
def tried (x : Connection) (d : ConnRef) (rest : List Bytes) (last : Int32) :
    Outcome Call Result :=
  let left := rest.drop x.outbox.room
  let last := x.outbox.lastOf last (rest.take x.outbox.room)
  if left ≠ [] then .wait (.send d left last)
  else if x.outbox.acked last then .answer .delivered
  else if x.closed then .answer .dropped
  else .wait (.send d [] last)

theorem attempt_send_of_closed {s : Sender} {d : ConnRef} {x : Connection} {rest : List Bytes}
    (last : Int32) (hx : s.conns[d]? = some x) (hc : rest ≠ [] ∧ x.closed = true) :
    s.attempt (.send d rest last) = (.answer .dropped,[],s) := by
  simp only [attempt,Call.conn,hx]
  rw [if_pos hc]

theorem attempt_send {s : Sender} {d : ConnRef} {x : Connection} {rest : List Bytes}
    (last : Int32) (hx : s.conns[d]? = some x) (hc : ¬ (rest ≠ [] ∧ x.closed = true)) :
    s.attempt (.send d rest last) =
      (tried x d rest last,[],s.modify d fun conn =>
        { conn with outbox := x.outbox.extend (rest.take x.outbox.room) }) := by
  simp only [attempt,Call.conn,hx]
  rw [if_neg hc,Outbox.hold_eq]
  simp only [tried,Outbox.acked_extend]
  split
  · rfl
  · split
    · rfl
    · split
      · rfl
      · rfl

theorem attempt_of_none {s : Sender} {call : Call} (h : s.conns[call.conn]? = none) :
    s.attempt call = (.answer (.failed .closed),[],s) := by
  simp only [attempt,h]

theorem attempt_connect_unchanged (s : Sender) (d : ConnRef) :
    (s.attempt (.connect d)).2 = ([],s) := by
  unfold attempt
  split
  · rfl
  · simp only
    split
    · rfl
    · split
      · rfl
      · rfl

theorem attempt_disconnect {s : Sender} {d : ConnRef} {x : Connection}
    (hx : s.conns[d]? = some x) :
    s.attempt (.disconnect d) =
      if x.closed then (.answer .disconnected,[],s)
      else if x.outbox.drained then
        (.answer .disconnected,[.send d leaveFrame],(s.modify d .requestClose).wakeCalls d)
      else (.wait (.disconnect d),[],s) := by
  simp only [attempt,Call.conn,hx]

theorem grown_disconnect (s : Sender) (d : ConnRef) :
    grown s (s.attempt (.disconnect d)).2.2 d = [] := by
  cases hx : s.conns[d]? with
  | none =>
    rw [attempt_of_none hx]
    exact grown_of_eq rfl
  | some x =>
    rw [attempt_disconnect hx]
    split
    · exact grown_of_eq rfl
    · split
      · simp [grown,slots,modify,hx,requestClose]
      · exact grown_of_eq rfl

theorem disconnect_added (s : Sender) (k : CallId) (d : ConnRef) :
    added k d c s (s.attempt (.disconnect d)).2.2 = [] := by
  unfold added
  split
  · rename_i hd
    rw [← hd,grown_disconnect]
    rfl
  · rfl

theorem grown_hold {s : Sender} {d : ConnRef} {x : Connection} (hx : s.conns[d]? = some x)
    (pieces : List Bytes) :
    grown s (s.modify d fun conn => { conn with outbox := x.outbox.extend pieces }) d = pieces := by
  simp [grown,slots,modify,hx]

theorem enter_conns (s : Sender) (call : Call) :
    (s.enter call).1.conns = (s.attempt call).2.2.conns := by
  unfold enter
  simp only
  split
  · rfl
  · rfl

theorem enter_said (s : Sender) (call : Call) (c : ConnRef) :
    said c (s.enter call).2 = said c (s.attempt call).2.1 := by
  unfold enter
  simp only
  split
  · simp [answer]
  · rfl

theorem poll_none {s : Sender} {k : CallId} (h : Waiting.ready? s.waiting k = none) :
    s.poll k = (s,[]) := by
  rw [poll,h]

theorem poll_conns {s : Sender} {k : CallId} {call : Call}
    (h : Waiting.ready? s.waiting k = some call) :
    (s.poll k).1.conns = (s.attempt call).2.2.conns := by
  simp only [poll,h]
  split
  · rfl
  · rfl

theorem poll_said {s : Sender} {k : CallId} {call : Call}
    (h : Waiting.ready? s.waiting k = some call) (c : ConnRef) :
    said c (s.poll k).2 = said c (s.attempt call).2.1 := by
  simp only [poll,h]
  split
  · simp
  · rfl

def Event.subject (s : Sender) : Event → Option ConnRef
  | .send number _ => (s.established number).map (·.1)
  | _ => none

def subject (s : Sender) (k : CallId) : Option ConnRef :=
  (Waiting.ready? s.waiting k).map (·.conn)

def addedOn (k : CallId) (subject : Option ConnRef) (c : ConnRef) (s t : Sender) : List Deed :=
  match subject with
  | none => []
  | some d => added k d c s t

theorem lookup_eq_some_iff {s : Sender} {id : ConnId} {d : ConnRef} {x : Connection} :
    s.lookup id = some (d,x) ↔ s.table.get? id = some d ∧ s.conns[d]? = some x := by
  unfold lookup
  cases ht : s.table.get? id with
  | none => simp
  | some e =>
    cases hx : s.conns[e]? with
    | none =>
      simp only [Option.bind_eq_bind,Option.bind_some,hx,Option.bind_none,reduceCtorEq,
        Option.some.injEq,false_iff,not_and]
      rintro rfl
      rw [hx]
      simp
    | some y =>
      simp only [Option.bind_eq_bind,Option.bind_some,hx,Option.pure_def,Option.some.injEq,
        Prod.mk.injEq]
      constructor
      · rintro ⟨rfl,rfl⟩
        exact ⟨rfl,hx⟩
      · rintro ⟨rfl,hy⟩
        rw [hx] at hy
        exact ⟨rfl,Option.some.inj hy⟩

theorem established_eq_some_iff {s : Sender} {id : ConnId} {d : ConnRef} {x : Connection} :
    s.established id = some (d,x) ↔
      s.lookup id = some (d,x) ∧ x.outbox.established = true := by
  rw [established,Option.filter_eq_some_iff]

theorem proper_send {s : Sender} {id : ConnId} {d : ConnRef} {x : Connection}
    (h : s.established id = some (d,x)) (data : Bytes) :
    (Call.send d (chunks Frame.maxPayload data) 0).Proper s := by
  obtain ⟨hl,he⟩ := established_eq_some_iff.mp h
  have hx := (lookup_eq_some_iff.mp hl).2
  constructor
  · intro y hy
    rw [hx] at hy
    rw [← Option.some.inj hy,he]
  · intro piece hp
    have hlen := length_of_mem_chunks (by decide) hp
    exact ⟨List.length_pos_iff.mp hlen.1,hlen.2⟩

end

end Sender
end ReliableTransport
