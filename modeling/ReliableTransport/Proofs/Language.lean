import ReliableTransport.Proofs.Expiry
import ReliableTransport.Proofs.Handshake
import ReliableTransport.Proofs.Ledger
import ReliableTransport.Proofs.Passage
import ReliableTransport.Proofs.Settling

/-! What a connection says, and when. It sends data after its remote accepts and before either side
asks for a close, and takes leave only when everything pushed on it is acknowledged: whoever speaks
for it then looks at the connection first, and speaks in the same step (`Speech.stroke`). Whoever
asks the remote does not look when it is time to ask again. A request may therefore still go out
after the remote has accepted, but only as long as the caller has had no turn (`not_retried`); in
every other play a connection says requests, then data, then farewells (`language_iff`). -/
namespace ReliableTransport

/-- If everything before a place where `p` holds has it too, `p` holds at first and then no more. -/
theorem exists_blocks {α : Type} {p : α → Bool} {l : List α}
    (h : ∀ xs a ys, l = xs ++ a :: ys → p a = true → ∀ b ∈ xs, p b = true) :
    ∃ xs ys, l = xs ++ ys ∧ (∀ a ∈ xs, p a = true) ∧ ∀ a ∈ ys, p a = false := by
  induction l with
  | nil => exact ⟨[],[],rfl,by simp,by simp⟩
  | cons b l ih =>
    cases hb : p b with
    | true =>
      obtain ⟨xs,ys,hl,hx,hy⟩ := ih fun xs c ys hl hc d hd =>
        h (b :: xs) c ys (by rw [hl,List.cons_append]) hc d (List.mem_cons_of_mem b hd)
      exact ⟨b :: xs,ys,by rw [hl,List.cons_append],List.forall_mem_cons.mpr ⟨hb,hx⟩,hy⟩
    | false =>
      refine ⟨[],b :: l,rfl,by simp,List.forall_mem_cons.mpr ⟨hb,fun a ha => ?_⟩⟩
      refine Bool.eq_false_iff.mpr fun hp => ?_
      obtain ⟨xs,ys,rfl⟩ := List.append_of_mem ha
      have hall := h (b :: xs) a ys rfl hp b List.mem_cons_self
      rw [hb] at hall
      cases hall

namespace Connection

open Sender (Settings dataFrame minWindow)

section

variable {log more before after : List Happening} {frame : Frame} {said : List Frame}

theorem frames_eq_append_cons {xs ys : List Frame} (h : frames log = xs ++ frame :: ys) :
    ∃ before after, log = before ++ .sent frame :: after ∧ frames before = xs ∧
      frames after = ys := by
  obtain ⟨early,late,rfl,hearly,hlate⟩ := List.filterMap_eq_append_iff.mp h
  obtain ⟨silent,a,after,rfl,hsilent,ha,hafter⟩ := List.filterMap_eq_cons_iff.mp hlate
  have hnone : frames silent = [] := List.filterMap_eq_nil_iff.mpr hsilent
  cases a with
  | sent g =>
    obtain rfl := Option.some.inj ha
    refine ⟨early ++ silent,after,by simp,?_,hafter⟩
    rw [frames_append,hnone,List.append_nil]
    exact hearly
  | _ => cases ha

/-- A frame of those said last was said before, or it is one of them. -/
theorem split_sent (h : log ++ said.map .sent = before ++ .sent frame :: after) :
    (∃ mid, log = before ++ .sent frame :: mid) ∨
      ∃ front back, said = front ++ frame :: back ∧ before = log ++ front.map .sent := by
  rcases List.append_eq_append_iff.mp h with ⟨mid,rfl,hmid⟩ | ⟨mid,rfl,hmid⟩
  · obtain ⟨front,back,rfl,rfl,hback⟩ := List.map_eq_append_iff.mp hmid
    obtain ⟨g,rest,rfl,hg,_⟩ := List.map_eq_cons_iff.mp hback
    obtain rfl := Happening.sent.inj hg
    exact .inr ⟨front,rest,rfl,rfl⟩
  · cases mid with
    | nil =>
      rw [List.nil_append] at hmid
      obtain ⟨g,rest,rfl,hg,_⟩ := List.map_eq_cons_iff.mp hmid.symm
      obtain rfl := Happening.sent.inj hg
      exact .inr ⟨[],rest,rfl,by simp⟩
    | cons a mid =>
      rw [List.cons_append,List.cons.injEq] at hmid
      obtain ⟨rfl,_⟩ := hmid
      exact .inl ⟨mid,rfl⟩

end

section

variable {settings : Settings} {asking lasting : Prop} {x y : Connection}
  {log hs : List Happening}

theorem Stroke.asks (h : Stroke settings asking lasting x hs y) {frame : Frame}
    (hm : .sent frame ∈ hs) (hk : frame.kind = .rcon) : asking := by
  cases h with
  | ask h => exact h
  | hold k _ _ _ _ => simp at hm
  | leave _ _ _ =>
    obtain rfl := Happening.sent.inj (List.mem_singleton.mp hm)
    cases hk
  | pump now _ _ _ =>
    obtain ⟨g,hg,he⟩ := List.mem_map.mp hm
    rw [← Happening.sent.inj he,kind_of_pumped hg] at hk
    cases hk
  | _ => simp at hm

theorem Strokes.asks (h : Strokes settings asking lasting x hs y) {frame : Frame}
    (hm : .sent frame ∈ hs) (hk : frame.kind = .rcon) : asking := by
  induction h with
  | done => cases hm
  | next h _ ih =>
    rcases List.mem_append.mp hm with hm | hm
    · exact h.asks hm hk
    · exact ih hm

/-- A stroke has a connection close if a close is asked for in it, and only then. -/
theorem Stroke.closing (h : Stroke settings asking lasting x hs y) :
    y.closing = (x.closing || ending hs) := by
  cases h with
  | ask _ => exact (Bool.or_false _).symm
  | leave _ _ _ => exact (Bool.or_true _).symm
  | hold k _ _ _ _ => simp [ending,Happening.ends]
  | accept _ hk _ => simp [ending,Happening.ends,hk]
  | ignore _ hk _ => simp [ending,Happening.ends,hk.2]
  | pump now _ _ _ =>
    have hnone : ending (((x.outbox.flush now minWindow settings.resend.nanos).1.map dataFrame ++
        [lifeFrame]).map .sent) = false := by
      refine List.any_eq_false.mpr fun a ha => ?_
      obtain ⟨frame,hf,rfl⟩ := List.mem_map.mp ha
      simp [Happening.ends,kind_of_pumped hf]
    rw [hnone,Bool.or_false]
  | heed _ hk => simp [ending,Happening.ends,hk]
  | dismiss _ hk => simp [requestClose,ending,Happening.ends,hk]
  | shut => simp [requestClose,teardown,halt,ending,Happening.ends]
  | _ => simp [ending,Happening.ends,teardown,halt]

structure Speech (x : Connection) (log : List Happening) : Prop where
  accepted : x.outbox.established = true → greeted log = true
  closing : x.closing = ending log
  data : ∀ before frame after, log = before ++ .sent frame :: after → frame.kind = .data →
    greeted before = true ∧ ending before = false
  leave : ∀ before frame after, log = before ++ .sent frame :: after → frame.kind = .rcls →
    greeted before = true ∧ ∀ e ∈ fragments before, Confirmed before e

theorem speech_start (id : ConnId) (bound remote : Address) (threshold : Duration) (now : Nat) :
    Speech (start id bound remote threshold now) [.sent requestFrame] where
  accepted := fun he => by
    rw [start,(Outbox.untouched_start now).not_established] at he
    cases he
  closing := rfl
  data := by
    intro before frame after h hk
    cases before <;> simp at h
    rw [← h.1] at hk
    cases hk
  leave := by
    intro before frame after h hk
    cases before <;> simp at h
    rw [← h.1] at hk
    cases hk

namespace Speech

def Stands (y : Connection) (log : List Happening) : Prop :=
  (y.outbox.established = true → greeted log = true) ∧ y.closing = ending log

theorem stands (h : Speech x log) (hs' : Stroke settings asking lasting x hs y) :
    Stands y (log ++ hs) := by
  refine ⟨fun hy => ?_,by rw [hs'.closing,h.closing,ending_append]⟩
  rw [greeted_append,Bool.or_eq_true]
  cases hs'.opens with
  | stay _ hf =>
    left
    refine h.accepted (Bool.not_eq_false _ ▸ fun he => ?_)
    rw [(hf he).1] at hy
    cases hy
  | opened hh hk _ _ =>
    right
    simp [hh,greeted,Happening.greets,hk]

theorem listen (h : Speech x log) (hy : Stands y (log ++ hs))
    (hq : ∀ frame, .sent frame ∉ hs) : Speech y (log ++ hs) where
  accepted := hy.1
  closing := hy.2
  data := by
    intro before frame after hsplit
    obtain ⟨mid,hmid⟩ := Conduct.split_of_not_mem hsplit (hq frame)
    exact h.data before frame mid hmid
  leave := by
    intro before frame after hsplit
    obtain ⟨mid,hmid⟩ := Conduct.split_of_not_mem hsplit (hq frame)
    exact h.leave before frame mid hmid

theorem speak (h : Speech x log) {said : List Frame} (hy : Stands y (log ++ said.map .sent))
    (hdata : ∀ frame ∈ said, frame.kind = .data → greeted log = true ∧
      ending log = false ∧ ∀ g ∈ said, g.kind ≠ .rcls)
    (hleave : ∀ frame ∈ said, frame.kind = .rcls → greeted log = true ∧
      ∀ e ∈ fragments log, Confirmed log e) :
    Speech y (log ++ said.map .sent) where
  accepted := hy.1
  closing := hy.2
  data := by
    intro before frame after hsplit hk
    rcases split_sent hsplit with ⟨mid,hmid⟩ | ⟨front,back,rfl,rfl⟩
    · exact h.data before frame mid hmid hk
    · obtain ⟨hg,he,hnone⟩ := hdata frame (by simp) hk
      have hfront : ending (front.map .sent) = false := by
        refine List.any_eq_false.mpr fun a ha => ?_
        obtain ⟨g,hm,rfl⟩ := List.mem_map.mp ha
        simp [Happening.ends,hnone g (List.mem_append_left _ hm)]
      rw [greeted_append,hg,ending_append,he,hfront]
      exact ⟨rfl,rfl⟩
  leave := by
    intro before frame after hsplit hk
    rcases split_sent hsplit with ⟨mid,hmid⟩ | ⟨front,back,rfl,rfl⟩
    · exact h.leave before frame mid hmid hk
    · obtain ⟨hg,hc⟩ := hleave frame (by simp) hk
      refine ⟨by rw [greeted_append,hg,Bool.true_or],fun e he => ?_⟩
      rw [fragments_append,fragments_sent,List.append_nil] at he
      exact (hc e he).append _

theorem stroke (h : Speech x log) (hp : Passage x log) (hs' : Stroke settings asking lasting x hs y)
    (hl : lasting) (hc : Conduct x (deeds log)) (hf : Few (log ++ hs)) : Speech y (log ++ hs) := by
  have hy := h.stands hs'
  cases hs' with
  | ask _ =>
    have hy : Stands x (log ++ [requestFrame].map .sent) := hy
    refine h.speak hy (fun frame hm hk => ?_) fun frame hm hk => ?_
    · rw [List.mem_singleton.mp hm] at hk
      cases hk
    · rw [List.mem_singleton.mp hm] at hk
      cases hk
  | leave he _ hd =>
    have hy : Stands x.requestClose (log ++ [leaveFrame].map .sent) := hy
    refine h.speak hy (fun frame hm hk => ?_) fun _ _ _ =>
      ⟨h.accepted (he hl),hp.all_confirmed hf.of_append ((hc.keeps (he hl)).drained_iff.mp hd)⟩
    rw [List.mem_singleton.mp hm] at hk
    cases hk
  | pump now hpump hcl _ =>
    have hkind := @kind_of_pumped (x.outbox.flush now minWindow settings.resend.nanos).1
    refine h.speak hy (fun _ _ _ => ⟨h.accepted (hc.still hpump),?_,fun g hg => ?_⟩)
      fun frame hm hk => ?_
    · rw [← h.closing,hcl]
    · rw [hkind hg]
      decide
    · rw [hkind hm] at hk
      cases hk
  | _ => exact h.listen hy (by simp)

end Speech

end

theorem Genuine.cases {pushed : List Bytes} {reach : Int} {frame : Frame}
    (h : Genuine pushed reach frame) :
    frame = requestFrame ∨ frame.kind = .data ∨ frame = leaveFrame := by
  cases h with
  | request => exact .inl rfl
  | leave => exact .inr (.inr rfl)
  | life => exact .inr (.inl rfl)
  | data _ _ => exact .inr (.inl rfl)

/-- Requests, then data, then farewells. -/
def Word (said : List Frame) : Prop :=
  ∃ asks texts leaves, said = asks ++ texts ++ leaves ∧ asks ≠ [] ∧
    (∀ frame ∈ asks, frame = requestFrame) ∧ (∀ frame ∈ texts, frame.kind = .data) ∧
    ∀ frame ∈ leaves, frame = leaveFrame

theorem Word.before_ask {xs ys : List Frame} (h : Word (xs ++ requestFrame :: ys)) :
    ∀ frame ∈ xs, frame = requestFrame := by
  obtain ⟨asks,texts,leaves,hsaid,_,hasks,htexts,hleaves⟩ := h
  rw [List.append_assoc] at hsaid
  rcases List.append_eq_append_iff.mp hsaid with ⟨mid,rfl,_⟩ | ⟨mid,rfl,hrest⟩
  · exact fun frame hm => hasks frame (List.mem_append_left _ hm)
  · cases mid with
    | nil => exact fun frame hm => hasks frame (by simpa using hm)
    | cons first mid =>
      have hm : requestFrame ∈ texts ++ leaves := by rw [hrest]; simp
      rcases List.mem_append.mp hm with hm | hm
      · cases htexts requestFrame hm
      · cases hleaves requestFrame hm

/-- A request, then data and farewells in this order, with further requests anywhere among them. -/
structure Phrase (said : List Frame) : Prop where
  first : ∃ rest, said = requestFrame :: rest
  asks : ∀ frame ∈ said, frame.kind = .rcon → frame = requestFrame
  rest : ∃ texts leaves, said.filter (fun frame => decide (frame.kind ≠ .rcon)) = texts ++ leaves ∧
    (∀ frame ∈ texts, frame.kind = .data) ∧ ∀ frame ∈ leaves, frame = leaveFrame

theorem Phrase.word {said : List Frame} (h : Phrase said)
    (hask : ∀ xs ys, said = xs ++ requestFrame :: ys → ∀ frame ∈ xs, frame = requestFrame) :
    Word said := by
  obtain ⟨asks,later,hsaid,hasks,hlater⟩ := exists_blocks (p := fun frame : Frame =>
      frame.kind = .rcon) (l := said) fun xs frame ys hl hp g hg => by
    obtain rfl := h.asks frame (by rw [hl]; simp) (of_decide_eq_true hp)
    rw [hask xs ys hl g hg]
    rfl
  obtain ⟨first,hfirst⟩ := h.first
  obtain ⟨texts,leaves,hrest,htexts,hleaves⟩ := h.rest
  have hnone : asks.filter (fun frame => decide (frame.kind ≠ .rcon)) = [] :=
    List.filter_eq_nil_iff.mpr fun frame hm => by simpa using hasks frame hm
  have hall : later.filter (fun frame => decide (frame.kind ≠ .rcon)) = later :=
    List.filter_eq_self.mpr fun frame hm => by simpa using hlater frame hm
  rw [hsaid,List.filter_append,hnone,hall,List.nil_append] at hrest
  refine ⟨asks,texts,leaves,by rw [hsaid,hrest,List.append_assoc],?_,fun frame hm => ?_,htexts,
    hleaves⟩
  · rintro rfl
    rw [List.nil_append] at hsaid
    have hm : requestFrame ∈ later := by rw [← hsaid,hfirst]; exact List.mem_cons_self
    exact absurd (hlater requestFrame hm) (by decide)
  · exact h.asks frame (by rw [hsaid]; exact List.mem_append_left _ hm)
      (of_decide_eq_true (hasks frame hm))

section

variable {x : Connection} {log before after rest : List Happening} {frame g : Frame}

theorem sent_of_mem_frames (h : frame ∈ frames log) : .sent frame ∈ log := by
  obtain ⟨a,ha,he⟩ := List.mem_filterMap.mp h
  cases a with
  | sent f =>
    obtain rfl := Option.some.inj he
    exact ha
  | _ => cases he

theorem Speech.before_ask (h : Speech x log) (hs : log = before ++ .sent frame :: after)
    (hg : greeted before = false) (hm : g ∈ frames before) :
    g.kind ≠ .data ∧ g.kind ≠ .rcls := by
  obtain ⟨early,late,rfl⟩ := List.append_of_mem (sent_of_mem_frames hm)
  rw [List.append_assoc,List.cons_append] at hs
  rw [greeted_append,Bool.or_eq_false_iff] at hg
  constructor
  · intro hk
    rw [(h.data early g _ hs hk).1] at hg
    cases hg.1
  · intro hk
    rw [(h.leave early g _ hs hk).1] at hg
    cases hg.1

theorem Speech.before_data (h : Speech x log) (hs : log = before ++ .sent frame :: after)
    (hk : frame.kind = .data) (hm : g ∈ frames before) : g.kind ≠ .rcls := by
  intro hkind
  have he := (h.data before frame after hs hk).2
  have hend := List.any_eq_false.mp he _ (sent_of_mem_frames hm)
  simp [Happening.ends,hkind] at hend

/-- What a connection says that begins with a request and says what connections may say. -/
theorem Speech.phrase (h : Speech x log) (hstart : log = .sent requestFrame :: rest)
    (hkind : ∀ frame ∈ frames log,
      frame = requestFrame ∨ frame.kind = .data ∨ frame = leaveFrame) : Phrase (frames log) := by
  have hrcls : ∀ frame ∈ frames log, frame.kind ≠ .rcon → frame.kind ≠ .data →
      frame = leaveFrame := by
    intro frame hm hr hd
    rcases hkind frame hm with rfl | hk | he
    · exact absurd rfl hr
    · exact absurd hk hd
    · exact he
  refine ⟨⟨frames rest,by rw [hstart]; rfl⟩,fun frame hm hk => ?_,?_⟩
  · rcases hkind frame hm with he | hd | rfl
    · exact he
    · rw [hk] at hd
      cases hd
    · cases hk
  obtain ⟨texts,leaves,hall,htexts,hleaves⟩ := exists_blocks (p := fun frame : Frame =>
      frame.kind = .data) (l := (frames log).filter fun frame => decide (frame.kind ≠ .rcon))
      fun xs frame ys hl hp g hg => by
    obtain ⟨early,late,hsaid,rfl,hlate⟩ := List.filter_eq_append_iff.mp hl
    obtain ⟨skipped,more,rfl,_,_,_⟩ := List.filter_eq_cons_iff.mp hlate
    rw [← List.append_assoc] at hsaid
    obtain ⟨before,after,hs,hbefore,_⟩ := frames_eq_append_cons hsaid
    obtain ⟨hm,hn⟩ := List.mem_filter.mp hg
    have hr := h.before_data hs (of_decide_eq_true hp)
      (by rw [hbefore]; exact List.mem_append_left _ hm)
    have hsaid' : g ∈ frames log := by rw [hsaid]; simp [hm]
    exact decide_eq_true (Decidable.byContradiction fun hd =>
      hr (by rw [hrcls g hsaid' (of_decide_eq_true hn) hd]; rfl))
  refine ⟨texts,leaves,hall,fun frame hm => of_decide_eq_true (htexts frame hm),fun frame hm => ?_⟩
  have hmem : frame ∈ (frames log).filter fun frame => decide (frame.kind ≠ .rcon) := by
    rw [hall]
    exact List.mem_append_right _ hm
  obtain ⟨hsaid,hn⟩ := List.mem_filter.mp hmem
  exact hrcls frame hsaid (of_decide_eq_true hn) (of_decide_eq_false (hleaves frame hm))

/-- A connection that asks only until it is accepted asks before it says anything else. -/
theorem Speech.only_asks (h : Speech x log)
    (hkind : ∀ frame ∈ frames log,
      frame = requestFrame ∨ frame.kind = .data ∨ frame = leaveFrame)
    (hask : ∀ before after, log = before ++ .sent requestFrame :: after → greeted before = false)
    {xs ys : List Frame} (hl : frames log = xs ++ requestFrame :: ys) :
    ∀ frame ∈ xs, frame = requestFrame := by
  intro g hg
  obtain ⟨before,after,hs,rfl,_⟩ := frames_eq_append_cons hl
  obtain ⟨hd,hr⟩ := h.before_ask hs (hask before after hs) hg
  rcases hkind g (by rw [hl]; exact List.mem_append_left _ hg) with he | hk | rfl
  · exact he
  · exact absurd hk hd
  · exact absurd rfl hr

end

end Connection

namespace Sender

open Connection

variable {settings : Settings} {s : Sender} {c : ConnRef} {ms : List Move}
  {before after log : List Happening} {frame : Frame}

theorem frames_eq_nil (h : ∀ frame, .sent frame ∉ log) : frames log = [] :=
  List.eq_nil_iff_forall_not_mem.mpr fun frame hf => h frame (sent_of_mem_frames hf)

theorem frames_told (c : ConnRef) (os : List Output) :
    (frames (told c os)).map .sent = said c os := by
  induction os with
  | nil => rfl
  | cons o os ih =>
    cases o with
    | finish k result => exact ih
    | send d frame =>
      rw [told_cons_send,said_cons_send,frames_append,List.map_append,ih]
      congr 1
      split
      · rfl
      · rfl

theorem not_sent_stampedOn {k : CallId} {subject : Option ConnRef} {t : Sender} :
    .sent frame ∉ stampedOn k subject c s t := by
  intro h
  obtain ⟨piece,he⟩ := of_mem_stampedOn h
  cases he

theorem not_sent_brings {e : Event} : .sent frame ∉ e.brings s c := by
  intro h
  rcases of_mem_brings h with ⟨g,hm⟩ | hm | ⟨hm,_⟩ | hm
  all_goals cases hm

theorem frames_happens (s : Sender) (c : ConnRef) (m : Move) :
    (frames (s.happens c m)).map .sent = said c (s.make m).2 := by
  cases m with
  | event e =>
    rw [happens,Event.happens,frames_append,frames_append,frames_eq_nil fun _ => not_sent_brings,
      frames_eq_nil fun _ => not_sent_stampedOn,List.nil_append,List.nil_append]
    exact frames_told c _
  | retry k =>
    rw [happens,retried,frames_append,frames_eq_nil fun _ => not_sent_stampedOn,List.nil_append]
    exact frames_told c _

/-- What a play puts out for a connection is what the connection says in it. -/
theorem frames_play (s : Sender) (ms : List Move) (c : ConnRef) :
    (frames (chronicle c s ms)).map .sent = said c (s.play ms).2 := by
  induction ms generalizing s with
  | nil => rfl
  | cons m ms ih =>
    rw [chronicle,frames_append,List.map_append,frames_happens,ih,play_cons,said_append]

/-- Only a caller who waits for the remote has a connection ask, when it is time to ask again. -/
theorem of_happens_ask (hs : s.Sound) {x : Connection} (hx : s.conns[c]? = some x) {m : Move}
    (hm : .sent frame ∈ s.happens c m) (hk : frame.kind = .rcon) :
    m = .event (.retry c) ∧ Asking s c := by
  cases m with
  | event e =>
    have ht : Takes s.settings (e = .retry c ∧ Asking s c) False c s (s.react e).1
      (e.happens s c) := react_strokes s e c
    obtain ⟨y,_,hstrokes⟩ := ht x hx
    obtain ⟨rfl,ha⟩ := hstrokes.asks hm hk
    exact ⟨rfl,ha⟩
  | retry k =>
    have ht : Takes s.settings False False c s (s.poll k).1 (s.retried c k) :=
      poll_strokes s (fun call hr => hs.sized _ (mem_held_of_ready hr)) fun _ _ hf => hf.elim
    obtain ⟨y,_,hstrokes⟩ := ht x hx
    exact (hstrokes.asks hm hk).elim

theorem happens_retry (s : Sender) (c d : ConnRef) :
    s.happens c (.event (.retry d)) = told c (s.onRetry d).2 := by
  have hbrings : (Event.retry d).brings s c = [] := by
    unfold Event.brings
    split
    · rfl
    · rfl
  have hsubject : (Event.retry d).subject s = none := rfl
  rw [happens,Event.happens,hbrings,hsubject,stampedOn,if_neg (by simp),List.nil_append,
    List.nil_append]
  rfl

theorem happens_retry_of_asking (h : Asking s c) :
    s.happens c (.event (.retry c)) = [.sent requestFrame] := by
  obtain ⟨w,hw,hcall⟩ := h
  rw [happens_retry,onRetry,if_pos (List.any_eq_true.mpr ⟨w,hw,decide_eq_true hcall⟩),
    told_cons_send,if_pos rfl]
  rfl

theorem asking_iff : Asking s c ↔ ∃ k, (k,.connect c) ∈ s.held := by
  constructor
  · rintro ⟨w,hw,hcall⟩
    exact ⟨w.id,hcall ▸ mem_held hw⟩
  · rintro ⟨k,hk⟩
    obtain ⟨w,hw,he⟩ := List.mem_map.mp hk
    exact ⟨w,hw,(Prod.mk.inj he).2⟩

theorem connect_of_wait {call : Call} (h : (s.attempt call).1 = .wait (.connect c)) :
    call = .connect c := by
  rcases attempt_wait_cases h with he | ⟨_,_,_,_,_,_,he,_⟩
  · exact he.symm
  · cases he

/-- Who waits for a connection that was there before has waited since then. -/
theorem connect_of_make {k : CallId} (hc : c < s.conns.length) {m : Move}
    (h : (k,.connect c) ∈ (s.make m).1.held) : (k,.connect c) ∈ s.held := by
  cases m with
  | event e =>
    rcases made_of_react h with hm | ⟨_,t,call,hmade,hwait⟩
    · exact hm
    · obtain rfl := connect_of_wait hwait
      cases hmade with
      | connect _ _ _ => exact absurd hc (Nat.lt_irrefl _)
  | retry j =>
    cases hr : Waiting.ready? s.waiting j with
    | none => rwa [make,poll_none hr] at h
    | some call =>
      rcases of_poll_held hr h with ⟨hm,_⟩ | ⟨rfl,hwait⟩
      · exact hm
      · exact connect_of_wait hwait ▸ mem_held_of_ready hr

theorem connect_of_play {k : CallId} (hc : c < s.conns.length) {ms : List Move}
    (h : (k,.connect c) ∈ (s.play ms).1.held) : (k,.connect c) ∈ s.held := by
  induction ms generalizing s with
  | nil => exact h
  | cons m ms ih =>
    rw [play_cons] at h
    exact connect_of_make hc (ih (lt_length_make hc m) h)

/-- Once nobody waits for the remote of a connection, the connection asks no more. -/
theorem unasked_play (hs : s.Sound) (hc : c < s.conns.length) (hn : ¬ Asking s c)
    (ms : List Move) : .sent requestFrame ∉ chronicle c s ms := by
  induction ms generalizing s with
  | nil => exact List.not_mem_nil
  | cons m ms ih =>
    rw [chronicle,List.mem_append,not_or]
    constructor
    · intro hm
      exact hn (of_happens_ask hs (List.getElem?_eq_getElem hc) hm rfl).2
    · refine ih (hs.make m) (lt_length_make hc m) fun ha => ?_
      obtain ⟨k,hk⟩ := asking_iff.mp ha
      exact hn (asking_iff.mpr ⟨k,connect_of_make hc hk⟩)

theorem Patient.turn (hp : s.Patient c) (hs : s.Sound) {x : Connection}
    (hx : s.conns[c]? = some x) (he : x.outbox.established = true) (k : CallId) :
    (k,.connect c) ∉ (s.poll k).1.held := by
  have hopen : ∀ {t : Sender}, t.conns[c]? = some x → ¬ (Call.connect c).Blocked t := by
    rintro t ht ⟨y,hy,_,hn⟩
    rw [← Option.some.inj (ht.symm.trans hy),he] at hn
    cases hn
  intro h
  cases hr : Waiting.ready? s.waiting k with
  | none =>
    rw [poll_none hr] at h
    rw [hp.ready hs h rfl (hopen hx)] at hr
    cases hr
  | some call =>
    rcases of_poll_held hr h with ⟨_,hk⟩ | ⟨_,ho⟩
    · exact hk rfl
    · obtain rfl := connect_of_wait ho
      refine hopen ?_ (attempt_blocked ho)
      rw [attempt_connect_unchanged]
      exact hx

theorem established_of_greeted (hf : Few (chronicle c (start settings) ms))
    (hg : greeted (chronicle c (start settings) ms) = true) :
    ∃ x, ((start settings).play ms).1.conns[c]? = some x ∧ x.outbox.established = true := by
  cases hx : ((start settings).play ms).1.conns[c]? with
  | none =>
    rw [(known_play settings ms c).fresh hx] at hg
    cases hg
  | some x =>
    refine ⟨x,rfl,Bool.not_eq_false _ ▸ fun he => ?_⟩
    rw [((handshaken_play settings ms c hf x hx).fresh he).1] at hg
    cases hg

/-- Who still waits for a connection has had no turn since its remote was heard to accept. -/
theorem not_retried {early late : List Move} {k : CallId}
    (hf : Few (chronicle c (start settings) (early ++ late)))
    (hg : greeted (chronicle c (start settings) early) = true)
    (hk : (k,.connect c) ∈ ((start settings).play (early ++ late)).1.held) : .retry k ∉ late := by
  intro hm
  obtain ⟨mid,rest,rfl⟩ := List.append_of_mem hm
  rw [← List.append_assoc] at hf hk
  rw [chronicle_append] at hf
  rw [play_append,play_cons] at hk
  obtain ⟨x,hx,he⟩ := established_of_greeted hf.of_append
    (by rw [chronicle_append,greeted_append,hg,Bool.true_or])
  have hturn := (patient_play settings _ c hf.of_append).turn
    (known_play settings (early ++ mid) c).sound hx he k
  refine hturn (connect_of_play ?_ hk)
  rw [poll_length]
  exact (List.getElem?_eq_some_iff.mp hx).1

/-- A connection asks when it is made, and later only as its caller does. -/
theorem ask_play (h : chronicle c (start settings) ms = before ++ .sent frame :: after)
    (hk : frame.kind = .rcon) : greeted before = false ∨
      ∃ past rest, ms = past ++ .event (.retry c) :: rest ∧
        Asking ((start settings).play past).1 c ∧ before = chronicle c (start settings) past := by
  obtain ⟨past,m,rest,early,late,rfl,hm,rfl,_⟩ := chronicle_split h
  have hknown := known_play settings past c
  cases hx : ((start settings).play past).1.conns[c]? with
  | none =>
    left
    rcases happens_of_none hknown.sound hx m with ⟨hn,_⟩ | ⟨hn,_⟩
    · rw [hn] at hm
      simp at hm
    · rw [hn] at hm
      cases early with
      | nil =>
        rw [hknown.fresh hx]
        rfl
      | cons a early => simp at hm
  | some x =>
    right
    obtain ⟨rfl,hasking⟩ := of_happens_ask hknown.sound hx (by rw [hm]; simp) hk
    rw [happens_retry_of_asking hasking] at hm
    cases early with
    | nil => exact ⟨past,rest,rfl,hasking,List.append_nil _⟩
    | cons a early => simp at hm

theorem speech_play (settings : Settings) (ms : List Move) (c : ConnRef)
    (hf : Few (chronicle c (start settings) ms)) :
    ∀ x, ((start settings).play ms).1.conns[c]? = some x →
      Speech x (chronicle c (start settings) ms) := by
  have hboth := chronicle_induct (P := fun x log => Passage x log ∧ Speech x log) settings ms c
    (fun id bound remote now => ⟨passage_start id bound remote settings.threshold now,
      speech_start id bound remote settings.threshold now⟩)
    fun _ _ _ _ hc h hs =>
      ⟨h.1.stroke hs hf (hc hf).1 (hc hf).2,h.2.stroke h.1 hs hf (hc hf).1 (hc hf).2⟩
  exact fun x hx => (hboth x hx).2

theorem asks_first (settings : Settings) (ms : List Move) (c : ConnRef) :
    ∀ x, ((start settings).play ms).1.conns[c]? = some x →
      ∃ rest, chronicle c (start settings) ms = .sent requestFrame :: rest :=
  chronicle_induct (P := fun _ log => ∃ rest, log = .sent requestFrame :: rest) settings ms c
    (fun _ _ _ _ => ⟨[],rfl⟩) fun _ _ _ hs _ ⟨rest,he⟩ _ => ⟨rest ++ hs,by rw [he]; rfl⟩

theorem genuine_play {x : Connection} (hf : Few (chronicle c (start settings) ms))
    (hx : ((start settings).play ms).1.conns[c]? = some x) :
    ∀ frame ∈ frames (chronicle c (start settings) ms),
      frame = requestFrame ∨ frame.kind = .data ∨ frame = leaveFrame := by
  intro frame hm
  refine (((known_play settings ms c).conduct hf x hx).genuine frame ?_).cases
  exact List.mem_filterMap.mpr ⟨_,sent_of_mem_frames hm,rfl⟩

theorem drained_of_leave (hs : s.Sound) {m : Move} (h : .send c leaveFrame ∈ (s.make m).2) :
    ∃ y, (s.make m).1.conns[c]? = some y ∧ y.outbox.slots = [] := by
  rcases make_farewells hs m c with hnone | ⟨_,hleft⟩
  · rw [farewells,List.countP_eq_zero] at hnone
    have hsaid : Deed.sent leaveFrame ∈ said c (s.make m).2 :=
      List.mem_filterMap.mpr ⟨_,h,by simp⟩
    have hne : leaveFrame.kind ≠ .rcls := by simpa using hnone _ hsaid
    exact absurd rfl hne
  · obtain ⟨y,hy,_,hd⟩ := hleft.quiet
    exact ⟨y,hy,List.isEmpty_iff.mp hd⟩

/-- All that a run has happen to a connection. -/
def annals (settings : Settings) (es : List Event) (c : ConnRef) : List Happening :=
  chronicle c (start settings) ((start settings).unroll es)

/-- What a connection says in a play, and when. -/
structure Discourse (settings : Settings) (ms : List Move) (c : ConnRef) : Prop where
  spoken : said c ((start settings).play ms).2 =
    (frames (chronicle c (start settings) ms)).map .sent
  phrase : Phrase (frames (chronicle c (start settings) ms))
  /-- A connection asks again only when it is time to and a call waits for its remote; when that was
  heard to accept, only until this call has had a turn. -/
  again : ∀ past m rest, ms = past ++ m :: rest →
    c < ((start settings).play past).1.conns.length →
    .sent requestFrame ∈ ((start settings).play past).1.happens c m →
    m = .event (.retry c) ∧ ∃ k, (k,.connect c) ∈ ((start settings).play past).1.held ∧
      ∀ early late, past = early ++ late → greeted (chronicle c (start settings) early) = true →
        .retry k ∉ late
  answered : ∀ past rest, ms = past ++ rest → c < ((start settings).play past).1.conns.length →
    ¬ Asking ((start settings).play past).1 c →
    .sent requestFrame ∉ chronicle c ((start settings).play past).1 rest
  data : ∀ before frame after, chronicle c (start settings) ms = before ++ .sent frame :: after →
    frame.kind = .data → greeted before = true ∧ ending before = false
  leave : ∀ before after, chronicle c (start settings) ms = before ++ .sent leaveFrame :: after →
    ∀ e ∈ fragments before, Confirmed before e
  drained : ∀ past m rest, ms = past ++ m :: rest →
    .send c leaveFrame ∈ (((start settings).play past).1.make m).2 →
    ∃ y, (((start settings).play past).1.make m).1.conns[c]? = some y ∧ y.outbox.slots = []

/-- A connection asks until its remote accepts, then sends data until a close is asked for, and then
takes leave, with everything confirmed that was pushed on it. -/
structure Language (settings : Settings) (ms : List Move) (c : ConnRef) : Prop
    extends Discourse settings ms c where
  word : Word (frames (chronicle c (start settings) ms))
  ask : ∀ before after, chronicle c (start settings) ms = before ++ .sent requestFrame :: after →
    greeted before = false

/-- It is never time to ask again for a connection between its remote's being heard to accept and
the next turn of the call that waits for it. -/
def InTime (settings : Settings) (ms : List Move) (c : ConnRef) : Prop :=
  ∀ past rest, ms = past ++ .event (.retry c) :: rest →
    greeted (chronicle c (start settings) past) = true → ¬ Asking ((start settings).play past).1 c

theorem discourse_play (settings : Settings) (ms : List Move) (c : ConnRef)
    (hc : c < ((start settings).play ms).1.conns.length)
    (hf : Few (chronicle c (start settings) ms)) : Discourse settings ms c := by
  have hx := List.getElem?_eq_getElem hc
  have hspeech := speech_play settings ms c hf _ hx
  obtain ⟨rest,hfirst⟩ := asks_first settings ms c _ hx
  exact {
    spoken := (frames_play _ ms c).symm
    phrase := hspeech.phrase hfirst (genuine_play hf hx)
    again := by
      rintro past m rest rfl hlt hm
      have hs := (known_play settings past c).sound
      obtain ⟨rfl,hasking⟩ := of_happens_ask hs (List.getElem?_eq_getElem hlt) hm rfl
      obtain ⟨k,hk⟩ := asking_iff.mp hasking
      refine ⟨rfl,k,hk,?_⟩
      rintro early late rfl hg
      rw [chronicle_append] at hf
      exact not_retried hf.of_append hg hk
    answered := fun past rest _ hlt hn =>
      unasked_play (known_play settings past c).sound hlt hn rest
    data := hspeech.data
    leave := fun before after h => (hspeech.leave before _ after h rfl).2
    drained := fun past m rest _ h => drained_of_leave ((sound_start settings).play past) h }

theorem language_iff (settings : Settings) (ms : List Move) (c : ConnRef)
    (hc : c < ((start settings).play ms).1.conns.length)
    (hf : Few (chronicle c (start settings) ms)) :
    Language settings ms c ↔ InTime settings ms c := by
  constructor
  · rintro h past rest rfl hg hasking
    have hsplit := chronicle_append c (start settings) past (.event (.retry c) :: rest)
    rw [chronicle,happens_retry_of_asking hasking] at hsplit
    rw [h.ask _ _ hsplit] at hg
    cases hg
  · intro h
    have hx := List.getElem?_eq_getElem hc
    have hspeech := speech_play settings ms c hf _ hx
    have hdiscourse := discourse_play settings ms c hc hf
    have hask : ∀ before after, chronicle c (start settings) ms =
        before ++ .sent requestFrame :: after → greeted before = false := by
      intro before after hsplit
      rcases ask_play hsplit rfl with hn | ⟨past,rest,hms,hasking,rfl⟩
      · exact hn
      · exact Bool.eq_false_iff.mpr fun hg => h past rest hms hg hasking
    exact ⟨hdiscourse,hdiscourse.phrase.word fun xs ys hl =>
      hspeech.only_asks (genuine_play hf hx) hask hl,hask⟩

theorem Timely.inTime (ht : (start settings).Timely ms)
    (hf : Few (chronicle c (start settings) ms)) : InTime settings ms c := by
  rintro past rest rfl hg hasking
  rw [chronicle_append] at hf
  obtain ⟨x,hx,he⟩ := established_of_greeted hf.of_append hg
  have hasleep := (timely_append.mp ht).2.1 _ rfl
  rw [hasleep.unanswered (patient_play settings past c hf.of_append) hasking hx] at he
  cases he

/-- Every connection asks first, sends data only when it is accepted and until a close is asked for,
and takes leave when everything is confirmed. It asks no more once its remote was heard to accept,
unless it is time to ask again before its caller has had a turn. In a run, where nothing happens
while a call is awake, it never is. -/
theorem language_along_play (settings : Settings) (ms : List Move) (c : ConnRef)
    (hc : c < ((start settings).play ms).1.conns.length)
    (hf : Few (chronicle c (start settings) ms)) :
    Discourse settings ms c ∧ (Language settings ms c ↔ InTime settings ms c) ∧
      ((start settings).Timely ms → Language settings ms c) ∧
      ∀ es, ms = (start settings).unroll es →
        said c ((start settings).run es).2 = said c ((start settings).play ms).2 ∧
          Language settings ms c := by
  have hiff := language_iff settings ms c hc hf
  have htimely := fun ht : (start settings).Timely ms => hiff.mpr (ht.inTime hf)
  refine ⟨discourse_play settings ms c hc hf,hiff,htimely,?_⟩
  rintro es rfl
  exact ⟨by rw [run_eq_play],htimely (timely_unroll (asleep_start settings) es)⟩

/-- It is time to ask again when the remote of a connection has just accepted. -/
def askLate (bound remote : Address) : List Move :=
  [.event (.connect bound remote none 0),
    .event (.datagram 0 remote (Frame.encode ⟨.acon,0,5000,[]⟩) 0),.event (.retry 0)]

theorem language_along_play_askLate :
    let bound : Address := ⟨.localhost,0,4001⟩
    let remote : Address := ⟨.localhost,0,4000⟩
    let settings : Settings := ⟨.ofMillis 1500,.ofMillis 500,.ofMillis 100⟩
    let ms := askLate bound remote ++ [.retry 0,.event (.send 1 [97]),.event (.disconnect 1),
      .event (.disconnect 1),.event (.wake 0 1),
      .event (.datagram 0 remote (Frame.encode ⟨.adat,1,5000,[]⟩) 2),.retry 1,.retry 2,.retry 3]
    Discourse settings ms 0 ∧ (Language settings ms 0 ↔ InTime settings ms 0) ∧
      said 0 ((start settings).play ms).2 = [requestFrame,lifeFrame,requestFrame,
        dataFrame (1,[97]),lifeFrame,leaveFrame,leaveFrame].map .sent := by
  intro bound remote settings ms
  obtain ⟨hdiscourse,hiff,_⟩ := language_along_play settings ms 0 (by decide +kernel)
    (by unfold Few; decide +kernel)
  exact ⟨hdiscourse,hiff,by decide +kernel⟩

/-- A connection that is asked for late says a request after data, and after its remote was heard
to accept. -/
theorem not_language_askLate :
    let bound : Address := ⟨.localhost,0,4001⟩
    let remote : Address := ⟨.localhost,0,4000⟩
    let settings : Settings := ⟨.ofMillis 1500,.ofMillis 500,.ofMillis 100⟩
    let ms := askLate bound remote
    0 < ((start settings).play ms).1.conns.length ∧ Few (chronicle 0 (start settings) ms) ∧
      said 0 ((start settings).play ms).2 = [requestFrame,lifeFrame,requestFrame].map .sent ∧
      ¬ Word [requestFrame,lifeFrame,requestFrame] ∧
      ¬ ∀ before after, chronicle 0 (start settings) ms = before ++ .sent requestFrame :: after →
        greeted before = false := by
  intro bound remote settings ms
  refine ⟨by decide +kernel,by unfold Few; decide +kernel,by decide +kernel,fun hword => ?_,
    fun hask => ?_⟩
  · have hsaid : Word ([requestFrame,lifeFrame] ++ requestFrame :: []) := hword
    cases hsaid.before_ask lifeFrame (by simp)
  · have hsplit : chronicle 0 (start settings) ms =
        chronicle 0 (start settings) (ms.take 2) ++ [.sent requestFrame] := by decide +kernel
    have hlate : greeted (chronicle 0 (start settings) (ms.take 2)) = true := by decide +kernel
    rw [hask _ [] hsplit] at hlate
    cases hlate

end Sender
end ReliableTransport
