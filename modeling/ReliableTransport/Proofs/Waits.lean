import Mathlib.Data.List.Induction
import ReliableTransport.Proofs.Language
import ReliableTransport.Proofs.Partings

/-! Why a call of a sender still waits when no call is awake. A sleeping call is blocked
(`patient_play`); here is added that the connection one asks for is in the table (`Rostered`), what
the pieces and the number are that a call to send waits with (`owing_play`), and what the calls are
told when their connection is torn down (`Parts.over`). -/
namespace ReliableTransport
namespace Sender

open Connection

variable {s : Sender} {c : ConnRef} {k : CallId}

def Sent (settings : Settings) (ms : List Move) (c : ConnRef) (k : CallId) (data : Bytes) : Prop :=
  ∃ past id rest, ms = past ++ .event (.send id data) :: rest ∧
    (((start settings).play past).1.established id).map (·.1) = some c ∧
    k = ((start settings).play past).1.calls

theorem Sent.append {settings : Settings} {ms : List Move} {data : Bytes}
    (h : Sent settings ms c k data) (more : List Move) : Sent settings (ms ++ more) c k data := by
  obtain ⟨past,id,rest,rfl,he,hk⟩ := h
  exact ⟨past,id,rest ++ more,by simp,he,hk⟩

theorem send_of_wait {call : Call} {rest : List Bytes} {last : Int32}
    (h : (s.attempt call).1 = .wait (.send c rest last)) :
    ∃ before earlier, call = .send c before earlier := by
  rcases attempt_wait_cases h with he | ⟨d,before,earlier,left,next,rfl,hl,_⟩
  · exact ⟨rest,last,he.symm⟩
  · obtain ⟨rfl,_,_⟩ := Call.send.inj hl
    exact ⟨before,earlier,rfl⟩

/-- A call to send that waits after an event did so before, or was made by it. -/
theorem send_of_react {e : Event} {rest : List Bytes} {last : Int32}
    (h : (k,.send c rest last) ∈ (s.react e).1.held) :
    (k,.send c rest last) ∈ s.held ∨ (k = s.calls ∧
      ∃ id data, e = .send id data ∧ (s.established id).map (·.1) = some c) := by
  refine (made_of_react h).imp_right ?_
  rintro ⟨hk,t,call,hmade,hwait⟩
  obtain ⟨before,earlier,rfl⟩ := send_of_wait hwait
  cases hmade with
  | send data he => exact ⟨hk,_,data,rfl,by rw [he]; rfl⟩

theorem sent_of_held (settings : Settings) (ms : List Move) {rest : List Bytes} {last : Int32}
    (h : (k,.send c rest last) ∈ ((start settings).play ms).1.held) :
    ∃ data, Sent settings ms c k data := by
  induction ms using List.reverseRecOn generalizing rest last with
  | nil => cases h
  | append_singleton ms m ih =>
    have hold : ∀ {rest : List Bytes} {last : Int32},
        (k,.send c rest last) ∈ ((start settings).play ms).1.held →
        ∃ data, Sent settings (ms ++ [m]) c k data :=
      fun hm => (ih hm).imp fun _ hsent => hsent.append [m]
    rw [play_concat] at h
    cases m with
    | event e =>
      rcases send_of_react h with hm | ⟨hk,id,data,rfl,he⟩
      · exact hold hm
      · exact ⟨data,ms,id,[],rfl,he,hk⟩
    | retry j =>
      cases hr : Waiting.ready? ((start settings).play ms).1.waiting j with
      | none =>
        rw [make,poll_none hr] at h
        exact hold h
      | some call =>
        rcases of_poll_held hr h with ⟨hm,_⟩ | ⟨hk,hwait⟩
        · exact hold hm
        · obtain ⟨before,earlier,rfl⟩ := send_of_wait hwait
          obtain rfl : k = j := hk
          exact hold (mem_held_of_ready hr)

/-- A call to send waits with what is left of its data, and with the number of what it has pushed
last. -/
theorem owing_play (settings : Settings) (ms : List Move) {rest : List Bytes} {last : Int32}
    (h : (k,.send c rest last) ∈ ((start settings).play ms).1.held) :
    ∃ data, Sent settings ms c k data ∧ (Call.send c rest last).Owes c data
      (fragmentsOf k (chronicle c (start settings) ms)) := by
  obtain ⟨data,hsent⟩ := sent_of_held settings ms h
  refine ⟨data,hsent,?_⟩
  obtain ⟨past,id,later,rfl,he,rfl⟩ := hsent
  have hs := (known_play settings past c).sound
  have herrand := ((Errand.begin he hs data).errand.play (hs.make _) later).1
  rw [play_append,play_cons] at h
  have howes := herrand.held _ h
  rw [List.nil_append,← fragmentsOf_append,← chronicle] at howes
  rw [chronicle_append,fragmentsOf_append,fragmentsOf_eq_nil fun piece hp =>
    Nat.lt_irrefl _ (pushed_of_chronicle (sound_start settings) hp),List.nil_append]
  exact howes

/-- Why the calls about connection `c` wait that still wait at the end of a play, and what became of
those that waited when it was torn down. -/
structure Waits (settings : Settings) (ms : List Move) (c : ConnRef) : Prop where
  connects : ∀ k, (k,.connect c) ∈ ((start settings).play ms).1.held →
    ∃ x, ((start settings).play ms).1.conns[c]? = some x ∧ x.closed = false ∧
      x.outbox.established = false ∧
      (((start settings).play ms).1.Own c → ((start settings).play ms).1.table.get? x.id = some c)
  own : binds ms < UInt32.size → c < ((start settings).play ms).1.conns.length →
    ((start settings).play ms).1.Own c
  /-- The connection is open, and there is no room for what is left of the data, or all of it was
  pushed and the last fragment is not acknowledged. -/
  sends : ∀ k rest last, (k,.send c rest last) ∈ ((start settings).play ms).1.held →
    (∃ data, Sent settings ms c k data ∧ (Call.send c rest last).Owes c data
      (fragmentsOf k (chronicle c (start settings) ms))) ∧
    ∃ x, ((start settings).play ms).1.conns[c]? = some x ∧ x.closed = false ∧
      ((rest ≠ [] ∧ x.outbox.full = true) ∨ (rest = [] ∧ x.outbox.acked last = false))
  disconnects : ∀ k, (k,.disconnect c) ∈ ((start settings).play ms).1.held →
    ∃ x, ((start settings).play ms).1.conns[c]? = some x ∧ x.closed = false ∧
      x.outbox.drained = false
  /-- When the connection is torn down, every call about it gets the answer it has for that, and no
  other, in whichever order those try again that were woken. -/
  partings : ∀ past m rest x y, ms = past ++ m :: rest →
    ((start settings).play past).1.conns[c]? = some x → x.closed = false →
    (((start settings).play past).1.make m).1.conns[c]? = some y → y.closed = true →
    ∀ k call, (k,call) ∈ ((start settings).play past).1.held → call.conn = c →
      (∀ later, (k,later) ∉ ((start settings).play ms).1.held) ∧
      ∀ result, .finish k result ∈ (((start settings).play past).1.play (m :: rest)).2 ↔
        result = call.farewell x
  /-- Whoever asks for the connection is then refused, unless the remote has accepted and nobody has
  tried again since. -/
  refused : ∀ past rest x k, ms = past ++ rest →
    ((start settings).play past).1.conns[c]? = some x →
    ((start settings).play past).1.Asleep → (k,.connect c) ∈ ((start settings).play past).1.held →
    (Call.connect c).farewell x = .failed .closed

theorem Asleep.blocked (h : s.Asleep) (hp : s.Patient c) {call : Call} (hk : (k,call) ∈ s.held)
    (hc : call.conn = c) : call.Blocked s := by
  obtain ⟨w,hw,hwe⟩ := List.mem_map.mp hk
  obtain ⟨rfl,rfl⟩ := Prod.mk.inj hwe
  exact hp w hw hc (h w hw)

theorem waits_of_asleep (settings : Settings) (ms : List Move) (c : ConnRef)
    (hf : Few (chronicle c (start settings) ms)) (ha : ((start settings).play ms).1.Asleep) :
    Waits settings ms c where
  connects := by
    intro k hk
    obtain ⟨x,hx,ho,he⟩ := ha.blocked (patient_play settings ms c hf) hk rfl
    exact ⟨x,hx,ho,he,(rostered_play settings ms).get? hx ho⟩
  own := fun hb hc => own_of_few (by rwa [play_length,start,List.length_nil,Nat.zero_add]) hc
  sends := by
    intro k rest last hk
    refine ⟨owing_play settings ms hk,?_⟩
    obtain ⟨x,hx,ho,hb⟩ := ha.blocked (patient_play settings ms c hf) hk rfl
    refine ⟨x,hx,ho,?_⟩
    by_cases hr : rest = []
    · rw [if_pos hr] at hb
      exact .inr ⟨hr,hb⟩
    · rw [if_neg hr] at hb
      exact .inl ⟨hr,hb⟩
  disconnects := fun k hk => ha.blocked (patient_play settings ms c hf) hk rfl
  partings := by
    rintro past m rest x y rfl hx ho hy hc k call hk hcall
    have hs := (known_play settings past c).sound
    have hparts := (parts_of_torn_down hs hx ho hy hc).play hs rest
    rw [play_append,play_cons] at ha ⊢
    have hpatient := patient_play settings _ c hf
    rw [play_append,play_cons] at hpatient
    exact hparts.over ha hpatient hk hcall
  refused := by
    rintro past rest x k rfl hx hasleep hk
    rw [chronicle_append] at hf
    obtain ⟨z,hz,_,he⟩ := hasleep.blocked (patient_play settings past c hf.of_append) hk rfl
    obtain rfl : x = z := Option.some.inj (hx.symm.trans hz)
    simp [Call.farewell,he]

/-- No caller sleeps through what it waits for. In a run nothing happens while a call is awake, and
none is after each event and all that follows from it; in a play those that were woken try again in
any order, and other things may happen meanwhile. -/
theorem waits_along_run (settings : Settings) (c : ConnRef) :
    (∀ es, Few (annals settings es c) →
      ((start settings).run es).1 = ((start settings).play ((start settings).unroll es)).1 ∧
      ((start settings).run es).1.Asleep ∧
      (start settings).Timely ((start settings).unroll es) ∧
      Waits settings ((start settings).unroll es) c) ∧
    ∀ ms, Few (chronicle c (start settings) ms) → ((start settings).play ms).1.Asleep →
      Waits settings ms c := by
  have hplay := fun ms => waits_of_asleep settings ms c
  refine ⟨fun es hf => ?_,hplay⟩
  have hrun := congrArg Prod.fst (run_eq_play (start settings) es)
  have ha := asleep_run settings es
  exact ⟨hrun,ha,timely_unroll (asleep_start settings) es,hplay _ hf (hrun ▸ ha)⟩

/-- Two calls to send and one to disconnect wait; the first fragment is acknowledged, and before
anybody has tried again the owner closes the sender. -/
def closeMeanwhile (bound remote : Address) : List Move :=
  acceptFirst bound remote ++
  [.event (.send 1 [97]),.event (.send 1 [98]),.event (.disconnect 1),.event (.wake 0 1),
    .event (.datagram 0 remote (Frame.encode ⟨.adat,1,5000,[]⟩) 2),.event .close,
    .retry 3,.retry 2,.retry 1]

theorem waits_along_run_closeMeanwhile :
    let bound : Address := ⟨.localhost,0,4001⟩
    let remote : Address := ⟨.localhost,0,4000⟩
    let settings : Settings := ⟨.ofMillis 1500,.ofMillis 500,.ofMillis 100⟩
    let early := (closeMeanwhile bound remote).take 7
    (Waits settings early 0 ∧ ((start settings).play early).1.held =
      [(1,.send 0 [] 1),(2,.send 0 [] 2),(3,.disconnect 0)]) ∧
    Waits settings (closeMeanwhile bound remote) 0 ∧
      (((start settings).play early).1.play ((closeMeanwhile bound remote).drop 7)).2 =
        [.finish 4 .shut,.finish 3 .disconnected,.finish 2 .dropped,.finish 1 .delivered] := by
  intro bound remote settings early
  have hplay := (waits_along_run settings 0).2
  refine ⟨⟨hplay early ?_ ?_,by decide +kernel⟩,hplay (closeMeanwhile bound remote) ?_ ?_,
    by decide +kernel⟩
  · unfold Few
    decide +kernel
  · unfold Asleep
    decide +kernel
  · unfold Few
    decide +kernel
  · unfold Asleep
    decide +kernel

end Sender
end ReliableTransport
