import ReliableTransport.Proofs.Discards
import ReliableTransport.Proofs.Errands
import ReliableTransport.Proofs.Fates
import ReliableTransport.Proofs.Ledger

/-! What becomes of the calls about a connection that is torn down. Its remote's silence or its owner
tears it down (`torn_down`), and nothing changes what is acknowledged on it any more
(`Stroke.stopped`). Each call about it is answered when it tries again (`attempt_of_closed`), and
only then; so once no call is awake all of them have their answer (`Parts.over`). -/
namespace ReliableTransport
namespace Connection

open Sender (Settings)

/-- The connection `y` is `x` torn down, with all that calls look at left as it was. -/
structure Stopped (x y : Connection) : Prop where
  closed : y.closed = true
  deaf : y.listening = false
  still : y.pumping = false
  outbox : y.outbox = x.outbox
  id : y.id = x.id

section

variable {settings : Settings} {asking lasting : Prop} {x y z : Connection} {log : List Happening}

/-- Nothing moves a connection that is torn down. -/
theorem Stroke.stopped (h : Stroke settings asking lasting y log z) (hs : Stopped x y) :
    Stopped x z := by
  have hopen : y.closed ≠ false := by simp [hs.closed]
  have hlisten : y.listening ≠ true := by simp [hs.deaf]
  cases h with
  | drain => exact ⟨hs.closed,hs.deaf,hs.still,hs.outbox,hs.id⟩
  | stop _ => exact ⟨hs.closed,hs.deaf,rfl,hs.outbox,hs.id⟩
  | ask _ => exact hs
  | hold _ _ hc _ _ => exact absurd hc hopen
  | leave _ hc _ => exact absurd hc hopen
  | accept hl _ _ => exact absurd hl hlisten
  | ignore hl _ _ => exact absurd hl hlisten
  | pump _ _ _ ho => exact absurd ho hopen
  | heed hl _ => exact absurd hl hlisten
  | dismiss hl _ => exact absurd hl hlisten
  | pass _ => exact hs
  | wait _ _ => exact ⟨hs.closed,hs.deaf,hs.still,hs.outbox,hs.id⟩
  | lapse _ _ => exact ⟨rfl,rfl,rfl,hs.outbox,hs.id⟩
  | shut => exact ⟨rfl,rfl,rfl,hs.outbox,hs.id⟩

theorem Strokes.stopped (h : Strokes settings asking lasting y log z) (hs : Stopped x y) :
    Stopped x z := by
  induction h with
  | done => exact hs
  | next h _ ih => exact ih (h.stopped hs)

end

end Connection

namespace Sender

open Connection (Stopped)

variable {s t : Sender} {c d : ConnRef} {x y : Connection} {m : Move} {os : List Output}
  {k : CallId}

/-- Whatever the calls count on, each move has a connection change by strokes only. -/
theorem Sound.takes (hs : s.Sound) (c : ConnRef) (m : Move) :
    Takes s.settings True False c s (s.make m).1 (s.happens c m) := by
  cases m with
  | event e =>
    intro x hx
    obtain ⟨y,hy,hst⟩ := react_strokes s e c x hx
    exact ⟨y,hy,hst.mono fun _ => trivial⟩
  | retry k =>
    exact poll_strokes s (fun call hr => hs.sized _ (mem_held_of_ready hr)) fun _ _ hf => hf.elim

theorem Sound.stopped (hs : s.Sound) (hy : s.conns[c]? = some y) (h : Stopped x y) (m : Move) :
    ∃ z, (s.make m).1.conns[c]? = some z ∧ Stopped x z := by
  obtain ⟨z,hz,hst⟩ := hs.takes c m y hy
  exact ⟨z,hz,hst.stopped h⟩

theorem outbox_modify (s : Sender) (d : ConnRef) {f : Connection → Connection}
    (hf : ∀ x, (f x).outbox = x.outbox) (c : ConnRef) :
    (s.modify d f).conns[c]?.map (·.outbox) = s.conns[c]?.map (·.outbox) := by
  by_cases hd : d = c
  · subst hd
    simp [Sender.modify,Option.map_map,Function.comp_def,hf]
  · rw [Sender.modify,List.getElem?_modify_ne _ _ hd]

theorem outbox_onTick (s : Sender) (d c : ConnRef) :
    (s.onTick d).conns[c]?.map (·.outbox) = s.conns[c]?.map (·.outbox) := by
  unfold onTick
  split
  · rfl
  · split
    · simp only
      split
      · rw [conns_wakeCalls]
        exact (outbox_modify _ d (fun _ => by rfl) c).trans (outbox_modify s d (fun _ => by rfl) c)
      · exact outbox_modify s d (fun _ => by rfl) c
    · rfl

theorem outbox_shut (s : Sender) (c : ConnRef) :
    s.shut.conns[c]?.map (·.outbox) = s.conns[c]?.map (·.outbox) := by
  have hfold : ∀ (ds : List ConnRef) (t : Sender),
      (ds.foldl (fun s d => (s.modify d fun conn => conn.requestClose.teardown).wakeCalls d)
        t).conns[c]?.map (·.outbox) = t.conns[c]?.map (·.outbox) := by
    intro ds
    induction ds with
    | nil => exact fun _ => rfl
    | cons d ds ih =>
      intro t
      rw [List.foldl_cons,ih,conns_wakeCalls]
      exact outbox_modify t d (fun _ => by rfl) c
  exact hfold _ _

/-- The silence of its remote and its owner tear a connection down, and nothing else does. -/
theorem torn_down (hx : s.conns[c]? = some x) (ho : x.closed = false)
    (hy : (s.make m).1.conns[c]? = some y) (hc : y.closed = true) :
    (m = .event (.tick c) ∨ m = .event .close) ∧ y.outbox = x.outbox ∧ y.id = x.id := by
  have hlook := look_eq hx
  have hafter := look_eq hy
  have hkept : ∀ {f : Face}, f.closed = false → (s.make m).1.look c ≠ some f := by
    intro f hf he
    rw [hafter] at he
    rw [← Option.some.inj he,Connection.face,hc] at hf
    cases hf
  have hsame : (s.make m).1.look c ≠ s.look c := hlook ▸ hkept ho
  have hcause : (m = .event (.tick c) ∨ m = .event .close) ∧ y.id = x.id := by
    have hu := s.make_upheaval m
    generalize (s.make m).1 = t at hu hy hafter hkept hsame
    cases hu with
    | rest _ _ hl => exact absurd (hl c) hsame
    | made _ hconns =>
      have hlt := (List.getElem?_eq_some_iff.mp hx).1
      exact absurd ((look_concat hconns c).trans (if_pos hlt)) hsame
    | @opened d z _ _ _ hz _ _ _ _ _ hl =>
      by_cases hd : c = d
      · subst hd
        obtain rfl := Option.some.inj (hx.symm.trans hz)
        exact absurd ((hl c).trans (if_pos rfl)) (hkept ho)
      · exact absurd ((hl c).trans (if_neg hd)) hsame
    | @left _ d z he _ _ hl =>
      by_cases hd : c = d
      · subst hd
        have hz := (lookup_eq_some_iff.mp (established_eq_some_iff.mp he).1).2
        obtain rfl := Option.some.inj (hx.symm.trans hz)
        exact absurd ((hl c).trans (if_pos rfl)) (hkept ho)
      · exact absurd ((hl c).trans (if_neg hd)) hsame
    | @lapsed d z hz _ _ _ hl =>
      by_cases hd : c = d
      · subst hd
        obtain rfl := Option.some.inj (hx.symm.trans hz)
        have hface := hafter.symm.trans ((hl c).trans (if_pos rfl))
        exact ⟨.inl rfl,congrArg Face.id (Option.some.inj hface)⟩
      · exact absurd ((hl c).trans (if_neg hd)) hsame
    | shut _ hl =>
      refine ⟨.inr rfl,?_⟩
      have hface := hafter.symm.trans (hl c)
      split at hface
      · rw [hlook] at hface
        exact congrArg Face.id (Option.some.inj hface)
      · exact absurd (hafter.trans hface) hsame
  refine ⟨hcause.1,?_,hcause.2⟩
  have hbox : (s.make m).1.conns[c]?.map (·.outbox) = s.conns[c]?.map (·.outbox) := by
    rcases hcause.1 with rfl | rfl
    · exact outbox_onTick s c c
    · exact outbox_shut s c
  rw [hx,hy] at hbox
  exact Option.some.inj hbox

def Call.farewell (x : Connection) : Call → Result
  | .connect _ => if x.outbox.established then .connected x.id else .failed .closed
  | .send _ rest last => if rest = [] ∧ x.outbox.acked last = true then .delivered else .dropped
  | .disconnect _ => .disconnected

theorem farewell_of_stopped (h : Stopped x y) (call : Call) :
    call.farewell y = call.farewell x := by
  cases call with
  | connect d => rw [Call.farewell,h.outbox,h.id,Call.farewell]
  | send d rest last => rw [Call.farewell,h.outbox,Call.farewell]
  | disconnect d => rfl

/-- No call waits on for a connection that is torn down. -/
theorem attempt_of_closed {call : Call} (hx : s.conns[call.conn]? = some x)
    (hc : x.closed = true) : (s.attempt call).1 = .answer (call.farewell x) := by
  cases call with
  | connect d =>
    simp only [attempt,hx,Call.farewell,hc,if_true]
    split
    · rfl
    · rfl
  | disconnect d =>
    have hx : s.conns[d]? = some x := hx
    rw [attempt_disconnect hx,if_pos hc]
    rfl
  | send d rest last =>
    cases rest with
    | cons piece rest =>
      have hx : s.conns[d]? = some x := hx
      rw [attempt_send_of_closed last hx ⟨List.cons_ne_nil _ _,hc⟩]
      simp [Call.farewell]
    | nil =>
      have hx : s.conns[d]? = some x := hx
      rw [attempt_send last hx fun h => h.1 rfl]
      simp only [tried,Call.farewell,List.drop_nil,List.take_nil,Outbox.lastOf_nil,ne_eq,
        not_true_eq_false,if_false,true_and,hc,if_true]
      split
      · rfl
      · rfl

theorem held_react_subset (e : Event) : s.held ⊆ (s.react e).1.held := by
  have henter : ∀ (t : Sender) (call : Call), t.held = s.held → s.held ⊆ (t.enter call).1.held := by
    intro t call ht
    rw [enter_held,ht]
    exact List.subset_append_left _ _
  have hsame : ∀ {t : Sender}, t.held = s.held → s.held ⊆ t.held := fun ht => ht ▸ fun _ hm => hm
  cases e with
  | connect bound remote refused now =>
    cases refused with
    | some cause => exact hsame rfl
    | none => exact henter _ _ rfl
  | send id data =>
    simp only [react]
    split
    · exact hsame rfl
    · split
      · exact hsame rfl
      · exact henter s _ rfl
  | disconnect id =>
    simp only [react]
    split
    · exact hsame rfl
    · split
      · exact hsame rfl
      · exact henter _ _ (held_modify s _ _)
  | close => exact hsame (shut_held s)
  | datagram d source raw now => exact hsame (onDatagram_held s d source raw now)
  | retry d => exact hsame (react_outer s (e := .retry d) trivial).2.1
  | wake d now => exact hsame (onWake_held s d now)
  | tick d => exact hsame (onTick_held s d)

theorem mem_finished_iff {j : CallId} {call : Call} {result : Result} :
    .finish k result ∈ finished j (s.attempt call).2.1 (s.attempt call).1 ↔
      k = j ∧ (s.attempt call).1 = .answer result := by
  refine ⟨of_finished,?_⟩
  rintro ⟨rfl,ho⟩
  rw [ho]
  simp [finished]

theorem held_retried {j : CallId} {call : Call} (hr : Waiting.ready? s.waiting j = some call) :
    (s.poll j).1.held = Waiting.retried s.held j (s.attempt call).1 := by
  rw [poll_held hr]
  cases (s.attempt call).1 with
  | wait later => rfl
  | answer result => rfl

/-- From `s` on connection `c` was torn down, being `x`, and the sender is now `t` with `os` put out
since. -/
structure Parts (s : Sender) (c : ConnRef) (x : Connection) (t : Sender) (os : List Output) :
    Prop where
  sound : t.Sound
  calls : s.calls ≤ t.calls
  gone : ∃ y, t.conns[c]? = some y ∧ Stopped x y
  fate : ∀ e ∈ s.held, e.2.conn = c →
    Waiting.Fate t.held (fun result => .finish e.1 result ∈ os) e (e.2.farewell x)

/-- Whoever tries again leaves the fate of every call about the connection as it is. -/
theorem Parts.fate_poll (h : Parts s c x t os) {e : CallId × Call} (he : e ∈ s.held)
    (hc : e.2.conn = c) (j : CallId) : Waiting.Fate (t.poll j).1.held
      (fun result => .finish e.1 result ∈ os ++ (t.poll j).2) e (e.2.farewell x) := by
  cases hr : Waiting.ready? t.waiting j with
  | none =>
    rw [poll_none hr,List.append_nil]
    exact h.fate e he hc
  | some call =>
    have hcall := mem_held_of_ready hr
    rw [held_retried hr]
    refine (h.fate e he hc).retry hcall (fun hm hj => ?_) fun result => ?_
    · have hown := List.inj_on_of_nodup_map h.sound.nodup hm hcall hj
      obtain rfl : e.2 = call := congrArg Prod.snd hown
      obtain ⟨y,hy,hstop⟩ := h.gone
      rw [attempt_of_closed (hc ▸ hy) hstop.closed,farewell_of_stopped hstop]
    · rw [List.mem_append,poll_finished hr,mem_finished_iff]

theorem Parts.fate_react (h : Parts s c x t os) {e : CallId × Call} (he : e ∈ s.held)
    (hc : e.2.conn = c) (hlt : e.1 < s.calls) (a : Event) : Waiting.Fate (t.react a).1.held
      (fun result => .finish e.1 result ∈ os ++ (t.react a).2) e (e.2.farewell x) := by
  have hold : e.1 ≠ t.calls := Nat.ne_of_lt (Nat.lt_of_lt_of_le hlt h.calls)
  refine (h.fate e he hc).keep (fun hm => held_react_subset a hm) (fun later hm => ?_)
    fun result => ?_
  · exact ⟨later,(of_react_held hm).resolve_right fun hmade => hold hmade.1⟩
  · rw [List.mem_append]
    exact or_iff_left fun hf => hold (react_finish hf)

theorem Parts.make (h : Parts s c x t os) (hs : s.Sound) (m : Move) :
    Parts s c x (t.make m).1 (os ++ (t.make m).2) where
  sound := h.sound.make m
  calls := Nat.le_trans h.calls (calls_le_make t m)
  gone := by
    obtain ⟨y,hy,hstop⟩ := h.gone
    exact h.sound.stopped hy hstop m
  fate := by
    intro e he hc
    cases m with
    | event a => exact h.fate_react he hc (hs.older e he) a
    | retry j => exact h.fate_poll he hc j

theorem Parts.play (h : Parts s c x t os) (hs : s.Sound) (ms : List Move) :
    Parts s c x (t.play ms).1 (os ++ (t.play ms).2) := by
  induction ms generalizing t os with
  | nil =>
    rw [show t.play [] = (t,[]) from rfl,List.append_nil]
    exact h
  | cons m ms ih =>
    rw [play_cons,← List.append_assoc]
    exact ih (h.make hs m)

/-- A call that waits when its connection is torn down has not been answered. -/
theorem parts_of_torn_down (hs : s.Sound) (hx : s.conns[c]? = some x) (ho : x.closed = false)
    (hy : (s.make m).1.conns[c]? = some y) (hc : y.closed = true) :
    Parts s c x (s.make m).1 (s.make m).2 where
  sound := hs.make m
  calls := calls_le_make s m
  gone := by
    obtain ⟨_,hbox,hid⟩ := torn_down hx ho hy hc
    obtain ⟨hdeaf,hstill⟩ := (hs.make m).halted c y hy hc
    exact ⟨y,hy,hc,hdeaf,hstill,hbox,hid⟩
  fate := by
    intro e he _
    obtain ⟨a,rfl⟩ : ∃ a, m = .event a :=
      (torn_down hx ho hy hc).1.elim (fun h => ⟨_,h⟩) fun h => ⟨_,h⟩
    refine .inl ⟨held_react_subset a he,fun result hf => ?_⟩
    exact Nat.ne_of_lt (hs.older e he) (react_finish hf)

theorem Call.Blocked.open {call : Call} (h : call.Blocked s) :
    ∃ x, s.conns[call.conn]? = some x ∧ x.closed = false := by
  cases call with
  | connect d => exact h.imp fun _ hx => ⟨hx.1,hx.2.1⟩
  | send d rest last => exact h.imp fun _ hx => ⟨hx.1,hx.2.1⟩
  | disconnect d => exact h.imp fun _ hx => ⟨hx.1,hx.2.1⟩

/-- Once no call is awake every call about the connection has its answer. -/
theorem Parts.over (h : Parts s c x t os) (ha : t.Asleep) (hp : t.Patient c) {e : CallId × Call}
    (he : e ∈ s.held) (hc : e.2.conn = c) :
    (∀ later, (e.1,later) ∉ t.held) ∧
      ∀ result, .finish e.1 result ∈ os ↔ result = e.2.farewell x := by
  refine (h.fate e he hc).over fun hwaits => ?_
  obtain ⟨w,hw,hwe⟩ := List.mem_map.mp hwaits
  have hcall : w.call = e.2 := congrArg Prod.snd hwe
  obtain ⟨z,hz,hopen⟩ := (hp w hw (hcall ▸ hc) (ha w hw)).open
  obtain ⟨y,hy,hstop⟩ := h.gone
  rw [hcall,hc,hy] at hz
  rw [← Option.some.inj hz,hstop.closed] at hopen
  cases hopen

end Sender
end ReliableTransport
