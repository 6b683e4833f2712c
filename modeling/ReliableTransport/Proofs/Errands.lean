import ReliableTransport.Proofs.Passage

/-! What a call to send comes to, whatever its remote says and whoever else calls. The call pushes
its pieces one after the other and waits for the last of them (`Call.Owes`); each of its tries
leaves it so or answers it (`attempt_resolves`), and nothing else touches it (`Errand.make`). A call
that is told that its data is delivered has had every fragment confirmed, and one that is told that
it is dropped was still waiting for a connection that is gone (`Verdict.answered`). -/
namespace ReliableTransport

namespace Connection

def lastNumber (es : List (Int32 × Bytes)) : Int32 := (es.getLast?.map (·.1)).getD 0

@[simp] theorem lastNumber_concat (es : List (Int32 × Bytes)) (e : Int32 × Bytes) :
    lastNumber (es ++ [e]) = e.1 := by
  simp [lastNumber]

theorem lastNumber_stamps {b : Outbox} {pieces : List Bytes} (h : pieces.length ≤ b.room)
    (es : List (Int32 × Bytes)) :
    lastNumber (es ++ b.stamps pieces) = b.lastOf (lastNumber es) pieces := by
  induction pieces generalizing b es with
  | nil => rw [Outbox.stamps,List.append_nil,Outbox.lastOf_nil]
  | cons piece pieces ih =>
    rw [List.length_cons] at h
    have hrest : pieces.length ≤ (b.extend [piece]).room := by
      rw [Outbox.room_extend,List.length_singleton]
      omega
    rw [Outbox.stamps_cons (by omega),List.append_cons,ih hrest,lastNumber_concat,
      Outbox.lastOf_cons]

theorem le_lastNumber {es : List (Int32 × Bytes)}
    (h : es.Pairwise fun e f => e.1.toInt < f.1.toInt) {e : Int32 × Bytes} (he : e ∈ es) :
    e.1.toInt ≤ (lastNumber es).toInt := by
  rcases List.eq_nil_or_concat es with rfl | ⟨init,last,rfl⟩
  · cases he
  · rw [List.concat_eq_append] at h he ⊢
    rw [lastNumber_concat]
    rcases List.mem_append.mp he with he | he
    · exact Int.le_of_lt ((List.pairwise_append.mp h).2.2 e he last List.mem_cons_self)
    · exact Int.le_of_eq (by rw [List.mem_singleton.mp he])

theorem fragmentsOf_eq_nil {k : CallId} {log : List Happening}
    (h : ∀ piece, .pushed k piece ∉ log) : fragmentsOf k log = [] := by
  refine List.eq_nil_iff_forall_not_mem.mpr fun e he => ?_
  obtain ⟨⟨j,piece⟩,hm,_⟩ := List.mem_map.mp he
  obtain ⟨hm,hj⟩ := List.mem_filter.mp hm
  obtain ⟨a,ha,hp⟩ := List.mem_filterMap.mp hm
  cases a with
  | pushed i q =>
    obtain ⟨rfl,rfl⟩ := Prod.mk.inj (Option.some.inj hp)
    obtain rfl : i = k := by simpa using hj
    exact h _ ha
  | _ => cases hp

@[simp] theorem fragmentsOf_pushed (k : CallId) (pieces : List (Int32 × Bytes)) :
    fragmentsOf k (pieces.map (.pushed k)) = pieces := by
  simp [fragmentsOf,List.filter_map,Function.comp_def]

end Connection

namespace Sender

open Connection

variable {s : Sender} {c d : ConnRef} {k : CallId} {data : Bytes} {es : List (Int32 × Bytes)}

theorem not_pushed_told {os : List Output} {j : CallId} {piece : Int32 × Bytes} :
    .pushed j piece ∉ told c os := by
  intro h
  obtain ⟨frame,hm,_⟩ := of_mem_told h
  cases hm

theorem not_pushed_brings {e : Event} {j : CallId} {piece : Int32 × Bytes} :
    .pushed j piece ∉ e.brings s c := by
  intro h
  rcases of_mem_brings h with ⟨frame,hm⟩ | hm | ⟨hm,_⟩ | hm
  all_goals cases hm

theorem pushed_of_happens {e : Event} {j : CallId} {piece : Int32 × Bytes}
    (h : .pushed j piece ∈ e.happens s c) : j = s.calls ∧ s.calls < (s.react e).1.calls := by
  rw [Event.happens,List.mem_append,List.mem_append] at h
  have h := (h.resolve_right not_pushed_told).resolve_left not_pushed_brings
  obtain ⟨q,hq⟩ := of_mem_stampedOn h
  refine ⟨(Happening.pushed.inj hq).1,?_⟩
  cases e with
  | send id data =>
    simp only [react]
    split
    · exact Nat.lt_succ_self _
    · split
      · exact Nat.lt_succ_self _
      · rw [enter_calls]
        exact Nat.lt_succ_self _
  | _ => simp [Event.subject,stampedOn] at h

theorem pushed_of_make (hs : s.Sound) {m : Move} {j : CallId} {piece : Int32 × Bytes}
    (h : .pushed j piece ∈ s.happens c m) :
    j < (s.make m).1.calls ∧ (j < s.calls → m = .retry j) := by
  cases m with
  | event e =>
    obtain ⟨rfl,hlt⟩ := pushed_of_happens h
    exact ⟨hlt,fun hj => absurd hj (Nat.lt_irrefl _)⟩
  | retry i =>
    have h := (List.mem_append.mp h).resolve_right not_pushed_told
    obtain ⟨q,hq⟩ := of_mem_stampedOn h
    obtain rfl := (Happening.pushed.inj hq).1
    refine ⟨?_,fun _ => rfl⟩
    rw [make,poll_calls]
    cases hr : Waiting.ready? s.waiting j with
    | none => simp [subject,hr,stampedOn] at h
    | some call => exact hs.older _ (mem_held_of_ready hr)

theorem calls_le_make (s : Sender) (m : Move) : s.calls ≤ (s.make m).1.calls := by
  cases m with
  | event e => exact calls_le_react s e
  | retry k => exact Nat.le_of_eq (poll_calls s k).symm

theorem calls_le_play (s : Sender) (ms : List Move) : s.calls ≤ (s.play ms).1.calls := by
  induction ms generalizing s with
  | nil => exact Nat.le_refl _
  | cons m ms ih => exact Nat.le_trans (calls_le_make s m) (ih (s.make m).1)

theorem pushed_of_chronicle (hs : s.Sound) {ms : List Move} {j : CallId} {piece : Int32 × Bytes}
    (h : .pushed j piece ∈ chronicle c s ms) : j < (s.play ms).1.calls := by
  induction ms generalizing s with
  | nil => cases h
  | cons m ms ih =>
    rcases List.mem_append.mp h with h | h
    · exact Nat.lt_of_lt_of_le (pushed_of_make hs h).1 (calls_le_play (s.make m).1 ms)
    · exact ih (hs.make m) h

/-- The call has pushed `es` on connection `c`, and the rest of its data is still to come. -/
def Call.Owes (c : ConnRef) (data : Bytes) (es : List (Int32 × Bytes)) (call : Call) : Prop :=
  ∃ rest, call = .send c rest (lastNumber es) ∧
    es.map (·.2) ++ rest = chunks Frame.maxPayload data

/-- All of the data was pushed, and the last fragment of it is acknowledged. -/
def Done (y : Connection) (data : Bytes) (es : List (Int32 × Bytes)) : Prop :=
  es.map (·.2) = chunks Frame.maxPayload data ∧ y.outbox.acked (lastNumber es) = true

inductive Verdict (y : Connection) (data : Bytes) (es : List (Int32 × Bytes)) : Result → Prop
  | delivered (h : Done y data es) : Verdict y data es .delivered
  | dropped (hc : y.closed = true) (h : ¬ Done y data es) : Verdict y data es .dropped

/-- The call waits on, or it is told what has become of its data. -/
def Resolves (c : ConnRef) (data : Bytes) (y : Connection) (es : List (Int32 × Bytes)) :
    Outcome Call Result → Prop
  | .wait later => later.Owes c data es
  | .answer result => Verdict y data es result

/-- A call to send tries. -/
theorem attempt_resolves {x : Connection} (hx : s.conns[c]? = some x) {call : Call}
    (h : call.Owes c data es) (k : CallId) :
    ∃ news y, stampedOn k (some c) c s (s.attempt call).2.2 = news.map (.pushed k) ∧
      (s.attempt call).2.2.conns[c]? = some y ∧
      (es ++ news).map (·.2) <+: chunks Frame.maxPayload data ∧
      Resolves c data y (es ++ news) (s.attempt call).1 := by
  obtain ⟨rest,rfl,hall⟩ := h
  by_cases hc : rest ≠ [] ∧ x.closed = true
  · rw [attempt_send_of_closed _ hx hc]
    rw [← List.append_nil es] at hall
    refine ⟨[],x,stampedOn_of_eq k _ rfl,hx,⟨rest,hall⟩,.dropped hc.2 fun hd => hc.1 ?_⟩
    rw [← hd.1] at hall
    exact List.append_cancel_left (hall.trans (List.append_nil _).symm)
  · have hroom := Outbox.length_take_room x.outbox rest
    rw [attempt_send _ hx hc]
    have hlast := lastNumber_stamps hroom es
    have hpushed : (es ++ x.outbox.stamps (rest.take x.outbox.room)).map (·.2) ++
        rest.drop x.outbox.room = chunks Frame.maxPayload data := by
      rw [List.map_append,Outbox.map_snd_stamps hroom,List.append_assoc,List.take_append_drop,hall]
    refine ⟨x.outbox.stamps (rest.take x.outbox.room),_,stampedOn_hold k hx _,
      conns_modify_self hx _,⟨_,hpushed⟩,?_⟩
    simp only [tried,← hlast]
    split
    · exact ⟨_,rfl,hpushed⟩
    · rename_i hleft
      rw [Decidable.not_not.mp hleft] at hpushed
      split
      · rename_i hacked
        exact .delivered ⟨by rw [← hpushed,List.append_nil],hacked⟩
      · rename_i hacked
        split
        · rename_i hclosed
          exact .dropped hclosed fun hd => hacked hd.2
        · exact ⟨[],rfl,hpushed⟩

/-- The call `k` to send `data` on connection `c` was made and has pushed `es`. -/
structure Errand (s : Sender) (c : ConnRef) (k : CallId) (data : Bytes)
    (es : List (Int32 × Bytes)) : Prop where
  made : k < s.calls
  about : ∃ x, s.conns[c]? = some x
  held : ∀ call, (k,call) ∈ s.held → call.Owes c data es
  pushed : es.map (·.2) <+: chunks Frame.maxPayload data

structure Serves (s : Sender) (c : ConnRef) (k : CallId) (data : Bytes)
    (es : List (Int32 × Bytes)) (m : Move) : Prop where
  errand : Errand (s.make m).1 c k data (es ++ fragmentsOf k (s.happens c m))
  answer : ∀ result, .finish k result ∈ (s.make m).2 → ∃ y, (s.make m).1.conns[c]? = some y ∧
    Verdict y data (es ++ fragmentsOf k (s.happens c m)) result
  aside : ∀ d, d ≠ c → fragmentsOf k (s.happens d m) = []

theorem fragmentsOf_told (c : ConnRef) (os : List Output) : fragmentsOf k (told c os) = [] :=
  fragmentsOf_eq_nil fun _ => not_pushed_told

theorem Errand.rest (h : Errand s c k data es) (hs : s.Sound) {m : Move} (hm : m ≠ .retry k) :
    Serves s c k data es m := by
  have hnone : ∀ d, fragmentsOf k (s.happens d m) = [] := fun d =>
    fragmentsOf_eq_nil fun _ hp => hm ((pushed_of_make hs hp).2 h.made)
  have hheld : ∀ call, (k,call) ∈ (s.make m).1.held → (k,call) ∈ s.held := by
    intro call hc
    cases m with
    | event e => exact (of_react_held hc).resolve_right fun hn => Nat.ne_of_lt h.made hn.1
    | retry j =>
      have hj : k ≠ j := fun he => hm (by rw [he])
      cases hr : Waiting.ready? s.waiting j with
      | none =>
        rw [make,poll_none hr] at hc
        exact hc
      | some call' => exact ((of_poll_held hr hc).resolve_right fun hn => hj hn.1).1
  refine ⟨?_,fun result hf => ?_,fun d _ => hnone d⟩
  · rw [hnone,List.append_nil]
    refine ⟨Nat.lt_of_lt_of_le h.made (calls_le_make s m),?_,
      fun call hc => h.held call (hheld call hc),h.pushed⟩
    obtain ⟨x,hx⟩ := h.about
    cases m with
    | event e =>
      have ht : Takes s.settings _ False c s (s.react e).1 _ := react_strokes s e c
      obtain ⟨y,hy,_⟩ := ht x hx
      exact ⟨y,hy⟩
    | retry j =>
      have hlt := (List.getElem?_eq_some_iff.mp hx).1
      exact ⟨_,List.getElem?_eq_getElem (by rwa [make,poll_length])⟩
  · cases m with
    | event e => exact absurd (react_finish hf) (Nat.ne_of_lt h.made)
    | retry j =>
      cases hr : Waiting.ready? s.waiting j with
      | none =>
        rw [make,poll_none hr] at hf
        cases hf
      | some call =>
        rw [make,poll_finished hr] at hf
        exact absurd (by rw [(of_finished hf).1]) hm

/-- A move that is a try of the call serves it as the try turns out. -/
theorem Serves.of_resolves {m : Move} {news : List (Int32 × Bytes)} {y : Connection}
    {outcome : Outcome Call Result} (hmade : k < (s.make m).1.calls)
    (hy : (s.make m).1.conns[c]? = some y) (hnow : fragmentsOf k (s.happens c m) = news)
    (hstarts : (es ++ news).map (·.2) <+: chunks Frame.maxPayload data)
    (hres : Resolves c data y (es ++ news) outcome)
    (hheld : ∀ later, (k,later) ∈ (s.make m).1.held → outcome = .wait later)
    (hanswer : ∀ result, .finish k result ∈ (s.make m).2 → outcome = .answer result)
    (haside : ∀ d, d ≠ c → fragmentsOf k (s.happens d m) = []) : Serves s c k data es m where
  errand := by
    rw [hnow]
    refine ⟨hmade,⟨y,hy⟩,fun later hl => ?_,hstarts⟩
    rw [hheld later hl] at hres
    exact hres
  answer := by
    intro result hf
    rw [hanswer result hf] at hres
    rw [hnow]
    exact ⟨y,hy,hres⟩
  aside := haside

theorem Errand.retry (h : Errand s c k data es) : Serves s c k data es (.retry k) := by
  cases hr : Waiting.ready? s.waiting k with
  | none =>
    have hnone : ∀ d, fragmentsOf k (s.happens d (.retry k)) = [] := by
      intro d
      rw [happens,retried,subject,hr,Option.map_none,stampedOn,if_neg (by simp),List.nil_append]
      exact fragmentsOf_told d _
    refine ⟨?_,fun result hf => ?_,fun d _ => hnone d⟩
    · rw [hnone,List.append_nil,make,poll_none hr]
      exact h
    · rw [make,poll_none hr] at hf
      cases hf
  | some call =>
    have howes := h.held call (mem_held_of_ready hr)
    obtain ⟨x,hx⟩ := h.about
    obtain ⟨news,y,hnews,hy,hstarts,hres⟩ := attempt_resolves hx howes k
    have hconn : call.conn = c := by
      obtain ⟨rest,rfl,_⟩ := howes
      rfl
    refine .of_resolves (by rw [make,poll_calls]; exact h.made) (by rw [make,poll_conns hr,hy]) ?_
      hstarts hres (fun later hl => ?_) (fun result hf => ?_) fun d hd => ?_
    · rw [happens,retried,subject,hr,Option.map_some,hconn,stampedOn_congr _ _ (poll_conns hr),
        hnews,fragmentsOf_append,fragmentsOf_told,fragmentsOf_pushed,List.append_nil]
    · exact ((of_poll_held hr hl).resolve_left fun hn => hn.2 rfl).2
    · rw [make,poll_finished hr] at hf
      exact (of_finished hf).2
    · rw [happens,retried,subject,hr,Option.map_some,hconn,stampedOn_of_ne k (Ne.symm hd),
        List.nil_append]
      exact fragmentsOf_told d _

theorem Errand.make (h : Errand s c k data es) (hs : s.Sound) (m : Move) :
    Serves s c k data es m := by
  by_cases hm : m = .retry k
  · rw [hm]
    exact h.retry
  · exact h.rest hs hm

theorem acked_zero {b : Outbox} (h : b.established = true) : b.acked 0 = true := by
  have hn := Outbox.established_eq_true_iff.mp h
  rw [Outbox.acked,h,Bool.true_and,decide_eq_true_eq,Signed.nonpos_iff,
    Signed.toInt_sub_of_nonneg (Int.le_of_eq Int32.toInt_zero.symm) hn,Int32.toInt_zero]
  omega

/-- What a call to send pushes when it is made goes to the connection it asks for. -/
theorem fragmentsOf_send {id : ConnId} {x : Connection} (hest : s.established id = some (c,x))
    (data : Bytes) (d : ConnRef) :
    fragmentsOf k (s.happens d (.event (.send id data))) =
      fragmentsOf k (stampedOn s.calls (some c) d s (s.react (.send id data)).1) := by
  have hsubject : (Event.send id data).subject s = some c := by rw [Event.subject,hest]; rfl
  rw [happens,Event.happens,fragmentsOf_append,fragmentsOf_append,fragmentsOf_told,List.append_nil,
    fragmentsOf_eq_nil fun _ => not_pushed_brings,List.nil_append,hsubject]

theorem Errand.begin {id : ConnId} (he : (s.established id).map (·.1) = some c) (hs : s.Sound)
    (data : Bytes) : Serves s c s.calls data [] (.event (.send id data)) := by
  obtain ⟨⟨d,x⟩,hest,rfl⟩ := Option.map_eq_some_iff.mp he
  obtain ⟨hl,hx⟩ := established_eq_some_iff.mp hest
  have hat := (lookup_eq_some_iff.mp hl).2
  have haside : ∀ d', d' ≠ d →
      fragmentsOf s.calls (s.happens d' (.event (.send id data))) = [] := by
    intro d' hd
    rw [fragmentsOf_send hest,stampedOn_of_ne _ (Ne.symm hd)]
    rfl
  have hnew : ∀ call, (s.calls,call) ∉ s.held := fun call hc =>
    Nat.lt_irrefl _ (hs.older _ hc)
  by_cases hd : data = []
  · subst hd
    have hreact : s.react (.send id []) = s.answer [] .delivered := by
      simp only [react,hest,if_true]
    have hres : Resolves d [] x ([] ++ []) (.answer .delivered) := .delivered ⟨rfl,acked_zero hx⟩
    refine .of_resolves ?_ ?_ ?_ (by rw [List.nil_append]; exact List.nil_prefix) hres
      (fun later hl => ?_) (fun result hf => ?_) haside
    · rw [Sender.make,hreact]
      exact Nat.lt_succ_self _
    · rw [Sender.make,hreact]
      exact hat
    · rw [fragmentsOf_send hest,hreact,stampedOn_of_eq _ _
        (show (s.answer [] .delivered).1.conns[d]? = s.conns[d]? from rfl)]
      rfl
    · rw [Sender.make,hreact] at hl
      exact absurd hl (hnew later)
    · rw [Sender.make,hreact] at hf
      simp only [answer,List.nil_append,List.mem_singleton,Output.finish.injEq,true_and] at hf
      rw [hf]
  · have hreact : s.react (.send id data) =
        s.enter (.send d (chunks Frame.maxPayload data) 0) := by
      simp only [react,hest,if_neg hd]
    have howes : (Call.send d (chunks Frame.maxPayload data) 0).Owes d data [] := ⟨_,rfl,rfl⟩
    obtain ⟨news,y,hnews,hy,hstarts,hres⟩ := attempt_resolves hat howes s.calls
    refine .of_resolves ?_ ?_ ?_ hstarts hres (fun later hl => ?_) (fun result hf => ?_) haside
    · rw [Sender.make,hreact,enter_calls]
      exact Nat.lt_succ_self _
    · rw [Sender.make,hreact,enter_conns,hy]
    · rw [fragmentsOf_send hest,hreact,stampedOn_congr _ _ (enter_conns s _),hnews,
        fragmentsOf_pushed]
    · rw [Sender.make,hreact] at hl
      exact ((of_enter_held hl).resolve_left (hnew later)).2
    · rw [Sender.make,hreact,enter_finished] at hf
      exact (of_finished hf).2

theorem Errand.play (h : Errand s c k data es) (hs : s.Sound) (ms : List Move) :
    Errand (s.play ms).1 c k data (es ++ fragmentsOf k (chronicle c s ms)) ∧
      ∀ d, d ≠ c → fragmentsOf k (chronicle d s ms) = [] := by
  induction ms generalizing s es with
  | nil =>
    refine ⟨?_,fun _ _ => rfl⟩
    rw [show fragmentsOf k (chronicle c s []) = [] from rfl,List.append_nil]
    exact h
  | cons m ms ih =>
    obtain ⟨hnow,_,haside⟩ := h.make hs m
    obtain ⟨hlater,hothers⟩ := ih hnow (hs.make m)
    refine ⟨?_,fun d hd => ?_⟩
    · rw [chronicle,fragmentsOf_append,← List.append_assoc]
      exact hlater
    · rw [chronicle,fragmentsOf_append,haside d hd,hothers d hd]
      rfl

/-- What a call to send `data` is told when `log` has happened to its connection, which has become
`y`. -/
inductive Answered (y : Connection) (log : List Happening) (k : CallId) (data : Bytes) :
    Result → Prop
  | delivered (hall : ((fragmentsOf k log).map (·.2)).flatten = data)
      (hconfirmed : ∀ e ∈ fragmentsOf k log, Confirmed log e) : Answered y log k data .delivered
  /-- The connection is gone, and if all of the data was pushed the last fragment of it is not
  acknowledged. -/
  | dropped (hc : y.closed = true)
      (hn : (fragmentsOf k log).map (·.2) = chunks Frame.maxPayload data →
        y.outbox.acked (lastNumber (fragmentsOf k log)) = false) : Answered y log k data .dropped

/-- What comes of a call to send `data` on connection `c` that is made with the first of the moves
`more`, after the moves `before`. -/
structure Sending (settings : Settings) (before : List Move) (c : ConnRef) (k : CallId)
    (data : Bytes) (more : List Move) : Prop where
  sized : ∀ e ∈ fragmentsOf k (chronicle c (start settings) (before ++ more)), Sized e.2
  increasing : (fragmentsOf k (chronicle c (start settings) (before ++ more))).Pairwise
    fun e f => e.1.toInt < f.1.toInt
  starts : ((fragmentsOf k (chronicle c (start settings) (before ++ more))).map (·.2)).flatten <+:
    data
  aside : ∀ d, d ≠ c → fragmentsOf k (chronicle d (start settings) (before ++ more)) = []
  answered : ∀ past m rest result, more = past ++ m :: rest →
    .finish k result ∈ (((start settings).play (before ++ past)).1.make m).2 →
    ∃ y, ((start settings).play (before ++ past ++ [m])).1.conns[c]? = some y ∧
      Answered y (chronicle c (start settings) (before ++ past ++ [m])) k data result

theorem serves_play {id : ConnId} (he : (s.established id).map (·.1) = some c) (hs : s.Sound)
    {past rest later : List Move} {m : Move}
    (h : .event (.send id data) :: later = past ++ m :: rest) :
    Serves (s.play past).1 c s.calls data (fragmentsOf s.calls (chronicle c s past)) m := by
  have hfirst := Errand.begin he hs data
  cases past with
  | nil =>
    obtain ⟨rfl,_⟩ := List.cons.inj h
    exact hfirst
  | cons first past =>
    obtain ⟨rfl,_⟩ := List.cons.inj h
    have hlater := (hfirst.errand.play (hs.make _) past).1
    rw [List.nil_append,← fragmentsOf_append] at hlater
    exact hlater.make ((hs.make _).play past) m

theorem confirmed_of_done {x : Connection} {log : List Happening} (hc : Conduct x (deeds log))
    (hp : Passage x log) (hf : Few log)
    (hd : x.outbox.acked (lastNumber (fragmentsOf k log)) = true) :
    ∀ e ∈ fragmentsOf k log, Confirmed log e := by
  intro e he
  have hm := (fragmentsOf_sublist k log).subset he
  have hle := le_lastNumber ((hp.increasing hf).sublist (fragmentsOf_sublist k log)) he
  have hnumber : 0 < e.1.toInt := by
    have hm := hm
    unfold Few at hf
    rw [hp.numbered] at hm
    obtain ⟨i,_,_,hi⟩ := Outbox.number_of_mem (by omega) hm
    omega
  have hest : x.outbox.established = true := by
    rw [Outbox.acked,Bool.and_eq_true] at hd
    exact hd.1
  exact hp.confirmed e hm
    (Int.le_trans hle (((hc.keeps hest).acked_iff (by omega)).mp hd))

theorem Verdict.answered {y : Connection} {log : List Happening} {result : Result}
    (h : Verdict y data (fragmentsOf k log) result) (hc : Conduct y (deeds log))
    (hp : Passage y log) (hf : Few log) : Answered y log k data result := by
  cases h with
  | delivered hd =>
    exact .delivered (by rw [hd.1,flatten_chunks (by decide)]) (confirmed_of_done hc hp hf hd.2)
  | dropped hclosed hn =>
    exact .dropped hclosed fun hall => Bool.eq_false_iff.mpr fun hacked => hn ⟨hall,hacked⟩

/-- A call to send pushes its data in order and under increasing numbers. It is told that the data
is delivered only if every fragment was acknowledged after it was sent, and that it is dropped only
if the connection was gone before. -/
theorem sending_along_play (settings : Settings) (before later : List Move) (id : ConnId)
    (data : Bytes) (c : ConnRef)
    (he : (((start settings).play before).1.established id).map (·.1) = some c)
    (hf : Few (chronicle c (start settings) (before ++ .event (.send id data) :: later))) :
    Sending settings before c ((start settings).play before).1.calls data
      (.event (.send id data) :: later) := by
  have hs := (known_play settings before c).sound
  have hfirst := Errand.begin he hs data
  obtain ⟨herrand,haside⟩ := hfirst.errand.play (hs.make _) later
  have hlog : ∀ d more, fragmentsOf ((start settings).play before).1.calls
      (chronicle d (start settings) (before ++ more)) =
      fragmentsOf ((start settings).play before).1.calls
        (chronicle d ((start settings).play before).1 more) := by
    intro d more
    rw [chronicle_append,fragmentsOf_append,fragmentsOf_eq_nil (fun piece hp =>
      Nat.lt_irrefl _ (pushed_of_chronicle (sound_start settings) hp)),List.nil_append]
  have hpushed := herrand.pushed
  rw [List.nil_append,← fragmentsOf_append,← chronicle,← hlog] at hpushed
  refine ⟨fun e hm => ?_,?_,?_,fun d hd => ?_,fun past m rest result hsplit hfinish => ?_⟩
  · have hchunk := hpushed.subset (List.mem_map_of_mem hm)
    have hlen := length_of_mem_chunks (by decide) hchunk
    exact ⟨List.length_pos_iff.mp hlen.1,hlen.2⟩
  · obtain ⟨x,hx⟩ := herrand.about
    have hend : ((start settings).play (before ++ .event (.send id data) :: later)).1 =
        ((((start settings).play before).1.make (.event (.send id data))).1.play later).1 := by
      rw [play_append,play_cons]
    rw [← hend] at hx
    exact ((passage_play settings _ c hf x hx).increasing hf).sublist (fragmentsOf_sublist _ _)
  · obtain ⟨rest,hrest⟩ := hpushed
    refine ⟨rest.flatten,?_⟩
    rw [← List.flatten_append,hrest,flatten_chunks (by decide)]
  · rw [hlog,chronicle,fragmentsOf_append,hfirst.aside d hd,haside d hd]
    rfl
  · have hserves := serves_play he hs hsplit
    rw [play_append] at hfinish
    obtain ⟨y,hy,hverdict⟩ := hserves.answer result hfinish
    have hend : ((start settings).play (before ++ past ++ [m])).1 =
        ((((start settings).play before).1.play past).1.make m).1 := by
      rw [play_concat,play_append]
    rw [← hend] at hy
    rw [← fragmentsOf_append,← chronicle_concat,← hlog,← List.append_assoc] at hverdict
    have hfew : Few (chronicle c (start settings) (before ++ past ++ [m])) := by
      rw [hsplit,List.append_cons,← List.append_assoc,← List.append_assoc,chronicle_append] at hf
      exact hf.of_append
    exact ⟨y,hy,hverdict.answered ((known_play settings _ c).conduct hfew y hy)
      (passage_play settings _ c hfew y hy) hfew⟩

def acceptFirst (bound remote : Address) : List Move :=
  [.event (.connect bound remote none 0),
    .event (.datagram 0 remote (Frame.encode ⟨.acon,0,5000,[]⟩) 0),.retry 0]

def sendByte (remote : Address) : List Move :=
  [.event (.send 1 [97]),.event (.wake 0 1),
    .event (.datagram 0 remote (Frame.encode ⟨.adat,1,5000,[]⟩) 2),.retry 1]

theorem sending_along_play_byte :
    let bound : Address := ⟨.localhost,0,4001⟩
    let remote : Address := ⟨.localhost,0,4000⟩
    let settings : Settings := ⟨.ofMillis 1500,.ofMillis 500,.ofMillis 100⟩
    Sending settings (acceptFirst bound remote) 0 1 [97] (sendByte remote) ∧
      fragmentsOf 1 (chronicle 0 (start settings) (acceptFirst bound remote ++ sendByte remote)) =
        [(1,[97])] ∧
      .finish 1 .delivered ∈
        ((start settings).play (acceptFirst bound remote ++ sendByte remote)).2 := by
  intro bound remote settings
  have hcalls : ((start settings).play (acceptFirst bound remote)).1.calls = 1 := by decide +kernel
  have hsending := sending_along_play settings (acceptFirst bound remote) (sendByte remote).tail 1
    [97] 0 (by decide +kernel) (by unfold Few; decide +kernel)
  rw [hcalls] at hsending
  exact ⟨hsending,by decide +kernel,by decide +kernel⟩

end Sender
end ReliableTransport
