import ReliableTransport.Proofs.Chronicle

/-! How far the payloads of a connection have come. They are numbered from one on in the order in
which they are pushed; those up to the highest number sent have gone out under their own numbers,
and those up to the acknowledged point were acknowledged after they had (`Passage`). Whatever the
remote says, nothing else moves the acknowledged point. -/
namespace ReliableTransport
namespace Outbox

open Signed

theorem numbered_append (n : Nat) (pieces more : List Bytes) :
    numbered n (pieces ++ more) = numbered n pieces ++ numbered (n + pieces.length) more := by
  induction pieces generalizing n with
  | nil => rfl
  | cons piece pieces ih =>
    rw [List.cons_append,numbered,ih,numbered,List.cons_append,List.length_cons]
    congr 3
    omega

theorem number_of_mem {n : Nat} {pieces : List Bytes} (h : n + pieces.length < fragmentLimit)
    {e : Int32 × Bytes} (he : e ∈ numbered n pieces) :
    ∃ i : Nat, pieces[i]? = some e.2 ∧ e.1 = Int32.ofNat (n + i + 1) ∧
      e.1.toInt = (n + i + 1 : Nat) := by
  obtain ⟨i,hi,hnumber⟩ := mem_numbered he
  have hlt := (List.getElem?_eq_some_iff.mp hi).1
  exact ⟨i,hi,hnumber,by rw [hnumber,toInt_ofNat (by omega)]⟩

/-- A piece with a number beyond `n` is among those that come after the first `n`. -/
theorem mem_numbered_drop {n : Nat} {pieces : List Bytes} (h : pieces.length < fragmentLimit)
    (hn : n ≤ pieces.length) {e : Int32 × Bytes} (he : e ∈ numbered 0 pieces)
    (hlt : (n : Int) < e.1.toInt) : e ∈ numbered n (pieces.drop n) := by
  have hlen : (pieces.take n).length = n := List.length_take_of_le hn
  rw [← List.take_append_drop n pieces,numbered_append,hlen,Nat.zero_add,List.mem_append] at he
  refine he.resolve_left fun hfirst => ?_
  obtain ⟨i,hi,_,hnumber⟩ := number_of_mem (by omega) hfirst
  have hi := (List.getElem?_eq_some_iff.mp hi).1
  omega

theorem numbered_increasing {n : Nat} {pieces : List Bytes}
    (h : n + pieces.length < fragmentLimit) :
    (numbered n pieces).Pairwise fun e f => e.1.toInt < f.1.toInt := by
  induction pieces generalizing n with
  | nil => exact .nil
  | cons piece pieces ih =>
    rw [List.length_cons] at h
    refine .cons (fun e he => ?_) (ih (by omega))
    obtain ⟨i,_,_,hi⟩ := number_of_mem (by omega) he
    rw [hi,toInt_ofNat (by omega)]
    omega

end Outbox

namespace Connection

open Sender (Settings dataFrame minWindow)

/-- The payloads pushed, each under its number and with the call that pushed it. -/
def postings (log : List Happening) : List (CallId × Int32 × Bytes) := log.filterMap fun
  | .pushed k piece => some (k,piece)
  | _ => none

def fragments (log : List Happening) : List (Int32 × Bytes) := (postings log).map (·.2)

def fragmentsOf (k : CallId) (log : List Happening) : List (Int32 × Bytes) :=
  ((postings log).filter fun e => e.1 = k).map (·.2)

/-- The fragment was sent, and after that the remote acknowledged it or a later one. -/
def Confirmed (log : List Happening) (e : Int32 × Bytes) : Prop :=
  ∃ early answer late, log = early ++ .heard answer :: late ∧ answer.kind = .adat ∧
    e.1.toInt ≤ answer.fragment.toInt ∧ .sent (dataFrame e) ∈ early

section

variable {k : CallId} {log more : List Happening} {e : Int32 × Bytes}

@[simp] theorem postings_append (log more : List Happening) :
    postings (log ++ more) = postings log ++ postings more :=
  List.filterMap_append

@[simp] theorem fragments_append (log more : List Happening) :
    fragments (log ++ more) = fragments log ++ fragments more := by
  simp [fragments]

@[simp] theorem fragmentsOf_append (k : CallId) (log more : List Happening) :
    fragmentsOf k (log ++ more) = fragmentsOf k log ++ fragmentsOf k more := by
  simp [fragmentsOf]

@[simp] theorem postings_pushed (k : CallId) (pieces : List (Int32 × Bytes)) :
    postings (pieces.map (.pushed k)) = pieces.map fun piece => (k,piece) := by
  induction pieces with
  | nil => rfl
  | cons _ _ ih => exact congrArg (_ :: ·) ih

@[simp] theorem fragments_pushed (k : CallId) (pieces : List (Int32 × Bytes)) :
    fragments (pieces.map (.pushed k)) = pieces := by
  simp [fragments,Function.comp_def]

@[simp] theorem fragments_sent (frames : List Frame) : fragments (frames.map .sent) = [] := by
  induction frames with
  | nil => rfl
  | cons _ _ ih => exact ih

theorem fragmentsOf_sublist (k : CallId) (log : List Happening) :
    (fragmentsOf k log).Sublist (fragments log) :=
  List.filter_sublist.map _

theorem map_snd_fragments (log : List Happening) :
    (fragments log).map (·.2) = payloads (deeds log) := by
  induction log with
  | nil => rfl
  | cons a log ih =>
    rw [← List.singleton_append,fragments_append,deeds_append,payloads_append,List.map_append,ih]
    congr 1
    cases a <;> rfl

theorem Confirmed.append (h : Confirmed log e) (more : List Happening) :
    Confirmed (log ++ more) e := by
  obtain ⟨early,answer,late,rfl,hk,hn,hs⟩ := h
  exact ⟨early,answer,late ++ more,by simp,hk,hn,hs⟩

end

/-- A connection to which `log` has happened and how far its payloads have come. -/
structure Passage (x : Connection) (log : List Happening) : Prop where
  numbered : fragments log = Outbox.numbered 0 (payloads (deeds log))
  sent : ∀ e ∈ fragments log, e.1.toInt ≤ x.outbox.highestSent.toInt → .sent (dataFrame e) ∈ log
  confirmed : ∀ e ∈ fragments log, e.1.toInt ≤ x.outbox.lastAcked.toInt → Confirmed log e

theorem passage_start (id : ConnId) (bound remote : Address) (threshold : Duration) (now : Nat) :
    Passage (start id bound remote threshold now) [.sent requestFrame] :=
  ⟨rfl,by simp [fragments,postings],by simp [fragments,postings]⟩

namespace Passage

variable {settings : Settings} {asking lasting : Prop} {x y : Connection}
  {log hs : List Happening}

theorem advance (h : Passage x log) (hn : fragments hs = [])
    (hsent : ∀ e ∈ fragments log, x.outbox.highestSent.toInt < e.1.toInt →
      e.1.toInt ≤ y.outbox.highestSent.toInt → .sent (dataFrame e) ∈ hs)
    (hconfirmed : ∀ e ∈ fragments log, x.outbox.lastAcked.toInt < e.1.toInt →
      e.1.toInt ≤ y.outbox.lastAcked.toInt → Confirmed (log ++ hs) e) :
    Passage y (log ++ hs) := by
  have hsame : fragments (log ++ hs) = fragments log := by
    rw [fragments_append,hn,List.append_nil]
  refine ⟨?_,?_,?_⟩
  · rw [hsame,h.numbered,← map_snd_fragments,← map_snd_fragments,hsame]
  · rw [hsame]
    intro e he hle
    by_cases hx : e.1.toInt ≤ x.outbox.highestSent.toInt
    · exact List.mem_append_left _ (h.sent e he hx)
    · exact List.mem_append_right _ (hsent e he (by omega) hle)
  · rw [hsame]
    intro e he hle
    by_cases hx : e.1.toInt ≤ x.outbox.lastAcked.toInt
    · exact (h.confirmed e he hx).append hs
    · exact hconfirmed e he (by omega) hle

theorem stay (h : Passage x log) (hn : fragments hs = []) (ho : y.outbox = x.outbox) :
    Passage y (log ++ hs) := by
  refine h.advance hn (fun e _ hlt hle => ?_) fun e _ hlt hle => ?_
  · rw [ho] at hle
    omega
  · rw [ho] at hle
    omega

theorem hold (h : Passage x log) {k : CallId} {pieces : List Bytes}
    (hk : x.outbox.Keeps (payloads (deeds log))) (hroom : pieces.length ≤ x.outbox.room)
    (hf : Few (log ++ (x.outbox.stamps pieces).map (.pushed k))) :
    Passage { x with outbox := x.outbox.extend pieces }
      (log ++ (x.outbox.stamps pieces).map (.pushed k)) := by
  have hpay : payloads (deeds (log ++ (x.outbox.stamps pieces).map (.pushed k))) =
      payloads (deeds log) ++ pieces := by
    rw [deeds_append,payloads_append,deeds_pushed,payloads_pushed,Outbox.map_snd_stamps hroom]
  unfold Few at hf
  rw [hpay] at hf
  have hstamps := hk.stamps_eq hroom hf
  have hlater : ∀ e ∈ x.outbox.stamps pieces, (payloads (deeds log)).length < e.1.toInt := by
    intro e he
    rw [hstamps] at he
    obtain ⟨i,_,_,hi⟩ := Outbox.number_of_mem (by rwa [List.length_append] at hf) he
    rw [hi]
    omega
  have hle := hk.highest_le
  have hacked := hk.acked_le
  refine ⟨?_,?_,?_⟩
  · rw [hpay,fragments_append,fragments_pushed,h.numbered,hstamps,Outbox.numbered_append,
      Nat.zero_add]
  · intro e he hsent
    rw [fragments_append,fragments_pushed] at he
    rcases List.mem_append.mp he with he | he
    · exact List.mem_append_left _ (h.sent e he hsent)
    · have hlt := hlater e he
      rw [Outbox.highestSent_extend] at hsent
      omega
  · intro e he hconf
    rw [fragments_append,fragments_pushed] at he
    rcases List.mem_append.mp he with he | he
    · exact (h.confirmed e he hconf).append _
    · have hlt := hlater e he
      rw [Outbox.lastAcked_extend] at hconf
      omega

theorem pump (h : Passage x log) (hk : x.outbox.Keeps (payloads (deeds log)))
    (now threshold : Nat) :
    Passage { x with outbox := (x.outbox.flush now minWindow threshold).2 }
      (log ++ ((x.outbox.flush now minWindow threshold).1.map dataFrame ++ [lifeFrame]).map .sent)
      := by
  have hcursor := hk.cursor_eq
  have hsent := hk.sent
  have hsent_le := hk.sent_le
  have hacked_le := hk.acked_le
  by_cases hw : minWindow ≤ x.outbox.window
  · obtain ⟨c,hflush,hrest⟩ := hk.flush_of_open now threshold hw
    rw [hflush]
    have hlong := hk.highest_le
    refine h.advance (fragments_sent _) (fun e he hlt _ => ?_) fun e _ hlt hle => ?_
    · rw [h.numbered] at he
      have hm := Outbox.mem_numbered_drop (n := x.outbox.cursor.toInt.toNat) hk.few (by omega) he
        (by omega)
      exact List.mem_map_of_mem (List.mem_append_left _ (List.mem_map_of_mem hm))
    · simp only [hrest.acked] at hle
      omega
  · obtain ⟨c,hflush,hrest⟩ := hk.flush_of_shut now threshold hw
    rw [hflush]
    refine h.advance (fragments_sent _) (fun e _ hlt hle => ?_) fun e _ hlt hle => ?_
    · simp only [hrest.highest] at hle
      omega
    · simp only [hrest.acked] at hle
      omega

theorem heed (h : Passage x log) (hc : Conduct x (deeds log)) {frame : Frame}
    (hk : frame.kind = .adat) (now : Nat) (silence : Silence) :
    Passage { x with
      outbox := (x.outbox.acknowledge frame.fragment frame.window now).2
      silence := silence } (log ++ [.heard frame]) := by
  cases he : x.outbox.established with
  | false =>
    rw [Outbox.acknowledge_of_not_established he]
    exact h.stay rfl rfl
  | true =>
    have hkeeps := hc.keeps he
    by_cases hw : x.outbox.lastAcked.toInt ≤ frame.fragment.toInt ∧
        frame.fragment.toInt ≤ x.outbox.highestSent.toInt
    · rw [hkeeps.acknowledge_of_within frame.window now hw.1 hw.2]
      refine h.advance rfl (fun e _ hlt hle => ?_) fun e hm _ hle => ?_
      · simp only at hle
        omega
      · simp only at hle
        exact ⟨log,frame,[],rfl,hk,hle,h.sent e hm (by omega)⟩
    · rw [hkeeps.acknowledge_of_outside frame.window now (by omega)]
      exact h.stay rfl rfl

theorem accept (h : Passage x log) (hc : Conduct x (deeds log)) {frame : Frame} {now : Nat}
    {outbox : Outbox} (he : x.outbox.establish frame.window now = some outbox) :
    Passage y (log ++ [.heard frame,.opened]) := by
  have hnone : fragments log = [] := by
    rw [h.numbered,(hc.untouched (Outbox.not_established_of_establish he)).2]
    rfl
  refine h.advance rfl (fun e hm _ _ => ?_) fun e hm _ _ => ?_
  · rw [hnone] at hm
    cases hm
  · rw [hnone] at hm
    cases hm

theorem stroke (h : Passage x log) (hs' : Stroke settings asking lasting x hs y) (hl : lasting)
    (hc : Conduct x (deeds log)) (hf : Few (log ++ hs)) : Passage y (log ++ hs) := by
  cases hs' with
  | drain => exact h.stay rfl rfl
  | stop _ => exact h.stay rfl rfl
  | ask _ => exact h.stay rfl rfl
  | hold k he _ hroom _ => exact h.hold (hc.keeps (he hl)) hroom hf
  | leave _ _ _ => exact h.stay rfl rfl
  | accept _ _ he => exact h.accept hc he
  | ignore _ _ _ => exact h.stay rfl rfl
  | pump now hp _ _ => exact h.pump (hc.keeps (hc.still hp)) now _
  | heed _ hk => exact h.heed hc hk _ _
  | dismiss _ _ => exact h.stay rfl rfl
  | pass _ => exact h.stay rfl rfl
  | wait _ _ => exact h.stay rfl rfl
  | lapse _ _ => exact h.stay rfl rfl
  | shut => exact h.stay rfl rfl

theorem increasing (h : Passage x log) (hf : Few log) :
    (fragments log).Pairwise fun e f => e.1.toInt < f.1.toInt := by
  unfold Few at hf
  rw [h.numbered]
  exact Outbox.numbered_increasing (by omega)

/-- Once the acknowledged point is where the pushed payloads end, they are all confirmed. -/
theorem all_confirmed (h : Passage x log) (hf : Few log)
    (ha : x.outbox.lastAcked.toInt = (payloads (deeds log)).length) :
    ∀ e ∈ fragments log, Confirmed log e := by
  intro e he
  refine h.confirmed e he ?_
  rw [h.numbered] at he
  unfold Few at hf
  obtain ⟨i,hi,_,hnumber⟩ := Outbox.number_of_mem (by omega) he
  have hi := (List.getElem?_eq_some_iff.mp hi).1
  omega

end Passage
end Connection

namespace Sender

open Connection

/-- As long as few payloads are pushed on it, this is how far they come on every connection of every
play. -/
theorem passage_play (settings : Settings) (ms : List Move) (c : ConnRef)
    (hf : Few (chronicle c (start settings) ms)) :
    ∀ x, ((start settings).play ms).1.conns[c]? = some x →
      Passage x (chronicle c (start settings) ms) :=
  chronicle_induct settings ms c
    (fun id bound remote now => passage_start id bound remote settings.threshold now)
    fun _ _ _ _ hc h hs => h.stroke hs hf (hc hf).1 (hc hf).2

end Sender
end ReliableTransport
