import ReliableTransport.Proofs.Integrity
import ReliableTransport.Proofs.Numbering

/-! What a connection may do. A turn is one change of a connection together with what it sends and
what is pushed on it meanwhile (`Turn`); every frame it sends is one of four kinds and every payload
goes out under its own number (`Genuine`), and a connection that has taken its leave had everything
acknowledged by then and sends no payload any more (`Conduct.left`). -/
namespace ReliableTransport
namespace Connection

open Sender Signed

/-- What a connection does that can be told from outside. -/
inductive Deed
  | sent (frame : Frame)
  | pushed (k : CallId) (piece : Bytes)
  deriving DecidableEq

def pushes (ds : List Deed) : List (CallId × Bytes) := ds.filterMap fun
  | .sent _ => none
  | .pushed k piece => some (k,piece)

def payloads (ds : List Deed) : List Bytes := (pushes ds).map (·.2)

@[simp] theorem pushes_nil : pushes [] = [] := rfl

@[simp] theorem pushes_append (ds es : List Deed) : pushes (ds ++ es) = pushes ds ++ pushes es :=
  List.filterMap_append

@[simp] theorem pushes_sent (frames : List Frame) : pushes (frames.map .sent) = [] := by
  induction frames with
  | nil => rfl
  | cons _ _ ih => exact ih

@[simp] theorem pushes_singleton_sent (frame : Frame) : pushes [.sent frame] = [] := rfl

@[simp] theorem pushes_pushed (k : CallId) (pieces : List Bytes) :
    pushes (pieces.map (.pushed k)) = pieces.map fun piece => (k,piece) := by
  induction pieces with
  | nil => rfl
  | cons _ _ ih => exact congrArg (_ :: ·) ih

@[simp] theorem payloads_nil : payloads [] = [] := rfl

@[simp] theorem payloads_append (ds es : List Deed) :
    payloads (ds ++ es) = payloads ds ++ payloads es := by
  simp [payloads]

@[simp] theorem payloads_sent (frames : List Frame) : payloads (frames.map .sent) = [] := by
  simp [payloads]

@[simp] theorem payloads_singleton_sent (frame : Frame) : payloads [.sent frame] = [] := rfl

@[simp] theorem payloads_pushed (k : CallId) (pieces : List Bytes) :
    payloads (pieces.map (.pushed k)) = pieces := by
  simp [payloads,Function.comp_def]

abbrev requestFrame : Frame := signal .rcon 0

abbrev leaveFrame : Frame := signal .rcls 0

/-- The frame that only says that a connection is alive. -/
abbrev lifeFrame : Frame := signal .data Frame.keepAlive

/-- The frames a connection sends that has sent the first `reach` of the payloads pushed. -/
inductive Genuine (pushed : List Bytes) (reach : Int) : Frame → Prop
  | request : Genuine pushed reach requestFrame
  | leave : Genuine pushed reach leaveFrame
  | life : Genuine pushed reach lifeFrame
  | data {i : Nat} {piece : Bytes} (hi : pushed[i]? = some piece) (hr : (i : Int) < reach) :
      Genuine pushed reach (dataFrame (Int32.ofNat (i + 1),piece))

theorem Genuine.mono {pushed more : List Bytes} {reach further : Int} {frame : Frame}
    (h : Genuine pushed reach frame) (hr : reach ≤ further) :
    Genuine (pushed ++ more) further frame := by
  cases h with
  | request => exact .request
  | leave => exact .leave
  | life => exact .life
  | data hi hlt =>
    have hl := (List.getElem?_eq_some_iff.mp hi).1
    exact .data (by rw [List.getElem?_append_left hl,hi]) (by omega)

def Sized (piece : Bytes) : Prop := piece ≠ [] ∧ piece.length ≤ Frame.maxPayload

theorem Genuine.fits {pushed : List Bytes} {reach : Int} {frame : Frame}
    (h : Genuine pushed reach frame) (hs : ∀ piece ∈ pushed, Sized piece) : frame.Fits := by
  cases h with
  | request => exact Nat.zero_le _
  | leave => exact Nat.zero_le _
  | life => exact Nat.zero_le _
  | data hi _ => exact (hs _ (List.mem_of_getElem? hi)).2

/-- What the calls and the clock change about a connection without touching its outbox. -/
structure Marks (x y : Connection) : Prop where
  bound : y.bound = x.bound
  remote : y.remote = x.remote
  outbox : y.outbox = x.outbox
  closing : x.closing = true → y.closing = true
  closed : x.closed = true → y.closed = true
  halted : y.closed = true → x.closed = true ∨ (y.listening = false ∧ y.pumping = false)
  deaf : y.listening = true → x.listening = true
  hearing : x.listening = true → y.listening = true ∨ y.closed = true
  still : y.pumping = true → x.pumping = true
  awake : x.pumping = true → y.pumping = true ∨ y.closing = true ∨ y.closed = true

theorem Marks.refl (x : Connection) : Marks x x :=
  ⟨rfl,rfl,rfl,fun h => h,fun h => h,.inl,fun h => h,.inl,fun h => h,.inl⟩

theorem marks_requestClose (x : Connection) : Marks x x.requestClose where
  bound := rfl
  remote := rfl
  outbox := rfl
  closing := fun _ => rfl
  closed := fun h => h
  halted := .inl
  deaf := fun h => h
  hearing := .inl
  still := fun h => h
  awake := .inl

theorem marks_teardown (x : Connection) : Marks x x.teardown where
  bound := rfl
  remote := rfl
  outbox := rfl
  closing := fun h => h
  closed := fun _ => rfl
  halted := fun _ => .inr ⟨rfl,rfl⟩
  deaf := fun h => Bool.noConfusion h
  hearing := fun _ => .inr rfl
  still := fun h => Bool.noConfusion h
  awake := fun _ => .inr (.inr rfl)

theorem Marks.trans {x y z : Connection} (h : Marks x y) (hs : Marks y z) : Marks x z where
  bound := hs.bound.trans h.bound
  remote := hs.remote.trans h.remote
  outbox := hs.outbox.trans h.outbox
  closing := fun hx => hs.closing (h.closing hx)
  closed := fun hx => hs.closed (h.closed hx)
  halted := by
    intro hz
    rcases hs.halted hz with hy | hz
    · rcases h.halted hy with hx | ⟨hl,hp⟩
      · exact .inl hx
      · refine .inr ⟨Bool.eq_false_iff.mpr fun hl' => ?_,Bool.eq_false_iff.mpr fun hp' => ?_⟩
        · rw [hs.deaf hl'] at hl; cases hl
        · rw [hs.still hp'] at hp; cases hp
    · exact .inr hz
  deaf := fun hz => h.deaf (hs.deaf hz)
  hearing := by
    intro hx
    rcases h.hearing hx with hy | hy
    · exact hs.hearing hy
    · exact .inr (hs.closed hy)
  still := fun hz => h.still (hs.still hz)
  awake := by
    intro hx
    rcases h.awake hx with hy | hy | hy
    · exact hs.awake hy
    · exact .inr (.inl (hs.closing hy))
    · exact .inr (.inr (hs.closed hy))

/-- One change of a connection, given the frames that may reach it, whether a call for it still asks
its remote, and how long it rests before it sends everything again. -/
inductive Turn (hears : Frame → Prop) (asking : Prop) (threshold : Nat) :
    Connection → List Deed → Connection → Prop
  | mark {x y : Connection} (h : Marks x y) : Turn hears asking threshold x [] y
  | request {x : Connection} (h : asking) :
      Turn hears asking threshold x [.sent requestFrame] x
  | hold {x : Connection} {pieces : List Bytes} (k : CallId) (he : x.outbox.established = true)
      (hc : x.closed = false) (hroom : pieces.length ≤ x.outbox.room)
      (hs : ∀ piece ∈ pieces, Sized piece) :
      Turn hears asking threshold x (pieces.map (.pushed k))
        { x with outbox := x.outbox.extend pieces }
  | leave {x : Connection} (he : x.outbox.established = true) (hc : x.closed = false)
      (hd : x.outbox.drained = true) :
      Turn hears asking threshold x [.sent leaveFrame] x.requestClose
  | accept {x : Connection} {frame : Frame} {now : Nat} {outbox : Outbox}
      (hl : x.listening = true) (hf : hears frame) (hk : frame.kind = .acon)
      (he : x.outbox.establish frame.window now = some outbox) :
      Turn hears asking threshold x []
        { x with
          outbox := outbox
          silence := x.silence.reset
          state := .connected
          pumping := true
          checking := true }
  | pump {x : Connection} (now : Nat) (hp : x.pumping = true) (hc : x.closing = false)
      (ho : x.closed = false) :
      Turn hears asking threshold x
        (((x.outbox.flush now minWindow threshold).1.map dataFrame ++ [lifeFrame]).map .sent)
        { x with outbox := (x.outbox.flush now minWindow threshold).2 }
  | heed {x : Connection} {frame : Frame} {silence : Silence} {now : Nat}
      (hl : x.listening = true) (hf : hears frame) (hk : frame.kind = .adat) :
      Turn hears asking threshold x []
        { x with
          outbox := (x.outbox.acknowledge frame.fragment frame.window now).2
          silence := silence }

inductive Turns (hears : Frame → Prop) (asking : Prop) (threshold : Nat) :
    Connection → List Deed → Connection → Prop
  | done {x : Connection} : Turns hears asking threshold x [] x
  | next {x y z : Connection} {ds es : List Deed} (h : Turn hears asking threshold x ds y)
      (hs : Turns hears asking threshold y es z) : Turns hears asking threshold x (ds ++ es) z

section

variable {hears : Frame → Prop} {asking : Prop} {threshold : Nat} {x y z : Connection}
  {ds es : List Deed}

theorem Turn.once (h : Turn hears asking threshold x ds y) :
    Turns hears asking threshold x ds y := by
  have hs := Turns.next h .done
  rwa [List.append_nil] at hs

theorem Turns.trans (h : Turns hears asking threshold x ds y)
    (hs : Turns hears asking threshold y es z) : Turns hears asking threshold x (ds ++ es) z := by
  induction h with
  | done => exact hs
  | next h _ ih =>
    rw [List.append_assoc]
    exact .next h (ih hs)

end

/-- A connection that has done `ds` since it was made. -/
structure Conduct (x : Connection) (ds : List Deed) : Prop where
  outbox : (x.outbox.Untouched ∧ payloads ds = []) ∨ x.outbox.Keeps (payloads ds)
  halted : x.closed = true → x.listening = false ∧ x.pumping = false
  hearing : x.listening = true ∨ x.closed = true
  awake : x.outbox.established = true →
    x.pumping = true ∨ x.closing = true ∨ x.closed = true
  still : x.pumping = true → x.outbox.established = true
  sized : ∀ piece ∈ payloads ds, Sized piece
  genuine : ∀ frame, .sent frame ∈ ds →
    Genuine (payloads ds) x.outbox.highestSent.toInt frame
  left : ∀ before after, ds = before ++ .sent leaveFrame :: after →
    x.closing = true ∧ x.outbox.lastAcked.toInt = (payloads before).length ∧
      x.outbox.highestSent.toInt = (payloads before).length

theorem conduct_start (id : ConnId) (bound remote : Address) (threshold : Duration) (now : Nat) :
    Conduct (start id bound remote threshold now) [.sent requestFrame] where
  outbox := .inl ⟨Outbox.untouched_start now,rfl⟩
  halted := by simp [start]
  hearing := .inl rfl
  awake := by
    have h := (Outbox.untouched_start now).not_established
    simp only [start,h]
    simp
  still := by simp [start]
  sized := by simp
  genuine := by
    intro frame h
    simp only [List.mem_singleton,Deed.sent.injEq] at h
    rw [h]
    exact .request
  left := by
    intro before after h
    cases before <;> simp [signal] at h

namespace Conduct

variable {hears : Frame → Prop} {asking : Prop} {threshold : Nat} {x y : Connection}
  {ds es : List Deed}

theorem keeps (h : Conduct x ds) (he : x.outbox.established = true) :
    x.outbox.Keeps (payloads ds) := by
  rcases h.outbox with ⟨hu,_⟩ | hk
  · rw [hu.not_established] at he
    cases he
  · exact hk

theorem untouched (h : Conduct x ds) (he : x.outbox.established = false) :
    x.outbox.Untouched ∧ payloads ds = [] := by
  rcases h.outbox with hu | hk
  · exact hu
  · rw [hk.established] at he
    cases he

theorem fits (h : Conduct x ds) {frame : Frame} (hf : .sent frame ∈ ds) : frame.Fits :=
  (h.genuine frame hf).fits h.sized

theorem genuine_append (h : Conduct x ds) {further : Int}
    (hr : x.outbox.highestSent.toInt ≤ further)
    (hs : ∀ frame, .sent frame ∈ es → Genuine (payloads (ds ++ es)) further frame) :
    ∀ frame, .sent frame ∈ ds ++ es → Genuine (payloads (ds ++ es)) further frame := by
  intro frame hf
  rcases List.mem_append.mp hf with hf | hf
  · rw [payloads_append]
    exact (h.genuine frame hf).mono hr
  · exact hs frame hf

theorem split_of_not_mem {α : Type} {xs ys before after : List α} {a : α}
    (h : xs ++ ys = before ++ a :: after) (hn : a ∉ ys) : ∃ mid, xs = before ++ a :: mid := by
  rcases List.append_eq_append_iff.mp h with ⟨mid,rfl,hy⟩ | ⟨mid,rfl,hy⟩
  · exact absurd (by rw [hy]; simp) hn
  · cases mid with
    | nil => exact absurd (by rw [← List.nil_append ys,← hy]; simp) hn
    | cons b mid =>
      simp only [List.cons_append,List.cons.injEq] at hy
      exact ⟨mid,by rw [hy.1]⟩

theorem mark (h : Conduct x ds) (hm : Marks x y) : Conduct y ds where
  outbox := by rw [hm.outbox]; exact h.outbox
  halted := by
    intro hy
    rcases hm.halted hy with hx | hh
    · have hh := h.halted hx
      constructor
      · exact Bool.eq_false_iff.mpr fun hl => by simp [hm.deaf hl] at hh
      · exact Bool.eq_false_iff.mpr fun hp => by simp [hm.still hp] at hh
    · exact hh
  hearing := by
    rcases h.hearing with hl | hc
    · exact hm.hearing hl
    · exact .inr (hm.closed hc)
  awake := by
    rw [hm.outbox]
    intro he
    rcases h.awake he with hp | hc | hc
    · exact hm.awake hp
    · exact .inr (.inl (hm.closing hc))
    · exact .inr (.inr (hm.closed hc))
  still := by
    rw [hm.outbox]
    exact fun hp => h.still (hm.still hp)
  sized := h.sized
  genuine := by rw [hm.outbox]; exact h.genuine
  left := by
    intro before after hd
    obtain ⟨hc,ha,hh⟩ := h.left before after hd
    rw [hm.outbox]
    exact ⟨hm.closing hc,ha,hh⟩

theorem hold (h : Conduct x ds) {pieces : List Bytes} (k : CallId)
    (he : x.outbox.established = true)
    (hroom : pieces.length ≤ x.outbox.room) (hs : ∀ piece ∈ pieces, Sized piece)
    (hfew : (payloads (ds ++ pieces.map (.pushed k))).length < fragmentLimit) :
    Conduct { x with outbox := x.outbox.extend pieces }
      (ds ++ pieces.map (.pushed k)) where
  outbox := by
    rw [payloads_append,payloads_pushed] at hfew ⊢
    exact .inr ((h.keeps he).push hroom hfew)
  halted := h.halted
  hearing := h.hearing
  awake := fun _ => h.awake he
  still := fun _ => he
  sized := by
    simp only [payloads_append,payloads_pushed,List.mem_append]
    rintro piece (hp | hp)
    · exact h.sized piece hp
    · exact hs piece hp
  genuine := h.genuine_append (Int.le_refl _) (by simp)
  left := by
    intro before after hd
    obtain ⟨mid,rfl⟩ := split_of_not_mem hd (by simp)
    exact h.left before mid rfl

theorem request (h : Conduct x ds) : Conduct x (ds ++ [.sent requestFrame]) where
  outbox := by simpa using h.outbox
  halted := h.halted
  hearing := h.hearing
  awake := h.awake
  still := h.still
  sized := by simpa using h.sized
  genuine := h.genuine_append (Int.le_refl _) (by
    intro frame hf
    simp only [List.mem_singleton,Deed.sent.injEq] at hf
    rw [hf]
    exact .request)
  left := by
    intro before after hd
    obtain ⟨mid,rfl⟩ := split_of_not_mem hd (by simp [signal])
    exact h.left before mid rfl

theorem leave (h : Conduct x ds) (he : x.outbox.established = true)
    (hd : x.outbox.drained = true) : Conduct x.requestClose (ds ++ [.sent leaveFrame]) where
  outbox := by simpa [requestClose] using h.outbox
  halted := h.halted
  hearing := h.hearing
  awake := fun _ => .inr (.inl rfl)
  still := h.still
  sized := by simpa using h.sized
  genuine := h.genuine_append (Int.le_refl _) (by
    intro frame hf
    simp only [List.mem_singleton,Deed.sent.injEq] at hf
    rw [hf]
    exact .leave)
  left := by
    intro before after hsplit
    refine ⟨rfl,?_⟩
    have hk := h.keeps he
    have ha := hk.drained_iff.mp hd
    have h₁ := hk.acked_le
    have h₂ := hk.highest_le
    rcases List.append_eq_append_iff.mp hsplit with ⟨mid,rfl,hy⟩ | ⟨mid,rfl,hy⟩
    · obtain rfl : mid = [] := by
        cases mid with
        | nil => rfl
        | cons d mid => simp at hy
      simp only [requestClose,List.append_nil]
      omega
    · cases mid with
      | nil =>
        simp only [List.append_nil] at ha h₂
        simp only [requestClose]
        omega
      | cons d mid =>
        simp only [List.cons_append,List.cons.injEq] at hy
        obtain ⟨rfl,rfl⟩ := hy
        exact (h.left before mid rfl).2

theorem accept (h : Conduct x ds) (hl : x.listening = true) {window : Int32} {now : Nat}
    {outbox : Outbox} (he : x.outbox.establish window now = some outbox) (silence : Silence) :
    Conduct { x with
      outbox := outbox
      silence := silence
      state := .connected
      pumping := true
      checking := true } ds := by
  have hne := Outbox.not_established_of_establish he
  obtain ⟨hu,hp⟩ := h.untouched hne
  obtain ⟨c,hc,hk,_,_,hz⟩ := hu.establish window now
  obtain rfl : c = outbox := by
    rw [he] at hc
    exact (Option.some.inj hc).symm
  have hopen : x.closed = false := Bool.eq_false_iff.mpr fun hx => by
    have hh := (h.halted hx).1
    rw [hl] at hh
    cases hh
  exact {
    outbox := by rw [hp]; exact .inr hk
    halted := by simp [hopen]
    hearing := .inl hl
    awake := fun _ => .inl rfl
    still := fun _ => hk.established
    sized := h.sized
    genuine := fun frame hf => by
      have hreach : x.outbox.highestSent.toInt ≤ c.highestSent.toInt := by
        rw [hu.highest,hz]
        decide
      have hg : Genuine (payloads ds ++ []) c.highestSent.toInt frame :=
        (h.genuine frame hf).mono hreach
      rwa [List.append_nil] at hg
    left := by
      intro before after hd
      have hn := (h.left before after hd).2.1
      have hm : (-1 : Int32).toInt = -1 := by decide
      rw [hu.acked,hm] at hn
      omega }

theorem pump (h : Conduct x ds) (hp : x.pumping = true) (hc : x.closing = false)
    (now threshold : Nat) :
    Conduct { x with outbox := (x.outbox.flush now minWindow threshold).2 }
      (ds ++ ((x.outbox.flush now minWindow threshold).1.map dataFrame ++ [lifeFrame]).map .sent)
      := by
  have hk := h.keeps (h.still hp)
  obtain ⟨sent,c,reach,hflush,hrest,hreach,hsent⟩ := hk.flush now threshold minWindow
  have hpay : payloads (ds ++ (sent.map dataFrame ++ [lifeFrame]).map .sent) = payloads ds := by
    rw [payloads_append,payloads_sent,List.append_nil]
  rw [hflush]
  exact {
    outbox := by rw [hpay]; exact .inr hrest.keeps
    halted := h.halted
    hearing := h.hearing
    awake := fun _ => .inl hp
    still := fun _ => hrest.keeps.established
    sized := by rw [hpay]; exact h.sized
    genuine := by
      refine h.genuine_append (by simp only [hrest.highest]; exact hreach) ?_
      intro frame hf
      rw [hpay]
      simp only [List.mem_map,List.mem_append,List.mem_singleton,Deed.sent.injEq,
        exists_eq_right] at hf
      rcases hf with ⟨e,he,rfl⟩ | rfl
      · obtain ⟨i,hi,hn,hget⟩ := hsent e he
        have hd : dataFrame e = dataFrame (Int32.ofNat (i + 1),e.2) := by rw [← hn]
        rw [hd]
        exact .data hget (by simp only [hrest.highest]; exact hi)
      · exact .life
    left := by
      intro before after hd
      obtain ⟨mid,rfl⟩ := split_of_not_mem hd (by simp [dataFrame,signal])
      have hcl := (h.left before mid rfl).1
      rw [hc] at hcl
      cases hcl }

theorem heed (h : Conduct x ds) (fragment window : Int32) (now : Nat) (silence : Silence) :
    Conduct { x with
      outbox := (x.outbox.acknowledge fragment window now).2
      silence := silence } ds := by
  cases he : x.outbox.established with
  | false =>
    rw [Outbox.acknowledge_of_not_established he]
    exact ⟨h.outbox,h.halted,h.hearing,h.awake,h.still,h.sized,h.genuine,h.left⟩
  | true =>
    have hk := h.keeps he
    have hk' := hk.acknowledge fragment window now
    obtain ⟨hhigh,hacked⟩ := hk.acknowledge_bounds fragment window now
    exact {
      outbox := .inr hk'
      halted := h.halted
      hearing := h.hearing
      awake := fun _ => h.awake he
      still := fun _ => hk'.established
      sized := h.sized
      genuine := by rw [hhigh]; exact h.genuine
      left := by
        intro before after hd
        obtain ⟨hc,ha,hh⟩ := h.left before after hd
        have hle := hk'.acked_le
        rw [hhigh] at hle
        exact ⟨hc,by simp only; omega,by simp only [hhigh]; exact hh⟩ }

end Conduct

theorem Turn.conduct {hears : Frame → Prop} {asking : Prop} {threshold : Nat} {x y : Connection}
    {ds es : List Deed} (ht : Turn hears asking threshold x es y) (h : Conduct x ds)
    (hfew : (payloads (ds ++ es)).length < fragmentLimit) : Conduct y (ds ++ es) := by
  cases ht with
  | mark hm => rw [List.append_nil]; exact h.mark hm
  | request _ => exact h.request
  | hold k he _ hroom hs => exact h.hold k he hroom hs hfew
  | leave he _ hd => exact h.leave he hd
  | accept hl _ _ he => rw [List.append_nil]; exact h.accept hl he _
  | pump now hp hc _ => exact h.pump hp hc now threshold
  | heed _ _ _ => rw [List.append_nil]; exact h.heed _ _ _ _

section

variable {hears : Frame → Prop} {asking : Prop} {threshold : Nat} {x y : Connection}
  {ds es : List Deed}

theorem Turn.highest_le (ht : Turn hears asking threshold x es y) (h : Conduct x ds) :
    x.outbox.highestSent.toInt ≤ y.outbox.highestSent.toInt := by
  cases ht with
  | mark hm => exact Int.le_of_eq (by rw [hm.outbox])
  | request _ => exact Int.le_refl _
  | hold k he _ hroom hs => exact Int.le_refl _
  | leave he _ hd => exact Int.le_refl _
  | accept hl _ _ he =>
    have hne := Outbox.not_established_of_establish he
    obtain ⟨hu,_⟩ := h.untouched hne
    obtain ⟨c,hc,_,_,_,hz⟩ := hu.establish _ _
    rw [he] at hc
    obtain rfl := Option.some.inj hc
    simp only [hu.highest,hz]
    decide
  | pump now hp hc _ =>
    obtain ⟨sent,c,reach,hflush,hrest,hreach,_⟩ :=
      (h.keeps (h.still hp)).flush now threshold minWindow
    simp only [hflush,hrest.highest]
    exact hreach
  | @heed frame silence now hl _ _ =>
    cases he : x.outbox.established with
    | false =>
      have hn := Outbox.acknowledge_of_not_established he frame.fragment frame.window now
      simp only [hn]
      exact Int.le_refl _
    | true =>
      have hb := (h.keeps he).acknowledge_bounds frame.fragment frame.window now
      simp only [hb.1]
      exact Int.le_refl _

inductive Advance (hears : Frame → Prop) (x y : Connection) : Prop
  | stay (h : y.outbox.lastAcked = x.outbox.lastAcked)
  | accepted {frame : Frame} (hf : hears frame) (hk : frame.kind = .acon)
      (he : x.outbox.established = false) (h : y.outbox.lastAcked = 0)
      (hw : frame.window ≤ y.outbox.window)
  | acknowledged {frame : Frame} (hf : hears frame) (hk : frame.kind = .adat)
      (he : x.outbox.established = true) (h : y.outbox.lastAcked = frame.fragment)
      (hn : 0 ≤ frame.fragment.toInt)

theorem Turn.advance (ht : Turn hears asking threshold x es y) (h : Conduct x ds) :
    Advance hears x y := by
  cases ht with
  | mark hm => exact .stay (by rw [hm.outbox])
  | request _ => exact .stay rfl
  | hold k he _ hroom hs => exact .stay rfl
  | leave he _ hd => exact .stay rfl
  | @accept frame now outbox hl hf hk he =>
    have hne := Outbox.not_established_of_establish he
    obtain ⟨hu,_⟩ := h.untouched hne
    obtain ⟨c,hc,_,hw,hz,_⟩ := hu.establish frame.window now
    rw [he] at hc
    obtain rfl := Option.some.inj hc
    exact .accepted hf hk hne hz hw
  | pump now hp hc _ =>
    obtain ⟨sent,c,reach,hflush,hrest,_⟩ :=
      (h.keeps (h.still hp)).flush now threshold minWindow
    exact .stay (by simp only [hflush,hrest.acked])
  | @heed frame silence now hl hf hk =>
    cases he : x.outbox.established with
    | false =>
      have hn := Outbox.acknowledge_of_not_established he frame.fragment frame.window now
      exact .stay (by simp only [hn])
    | true =>
      have hkeeps := h.keeps he
      have ha := hkeeps.acked
      by_cases hw : x.outbox.lastAcked.toInt ≤ frame.fragment.toInt ∧
          frame.fragment.toInt ≤ x.outbox.highestSent.toInt
      · refine .acknowledged hf hk he ?_ (by omega)
        simp only [hkeeps.acknowledge_of_within frame.window now hw.1 hw.2]
      · have ho : x.outbox.acknowledge frame.fragment frame.window now = (0,x.outbox) :=
          hkeeps.acknowledge_of_outside frame.window now (by omega)
        exact .stay (by simp only [ho])

theorem Turn.acked_le (ht : Turn hears asking threshold x es y) (h : Conduct x ds) :
    x.outbox.lastAcked.toInt ≤ y.outbox.lastAcked.toInt := by
  cases ht with
  | mark hm => exact Int.le_of_eq (by rw [hm.outbox])
  | request _ => exact Int.le_refl _
  | hold k he _ hroom hs => exact Int.le_refl _
  | leave he _ hd => exact Int.le_refl _
  | accept hl _ _ he =>
    have hne := Outbox.not_established_of_establish he
    obtain ⟨hu,_⟩ := h.untouched hne
    obtain ⟨c,hc,_,_,hz,_⟩ := hu.establish _ _
    rw [he] at hc
    obtain rfl := Option.some.inj hc
    simp only [hu.acked,hz]
    decide
  | pump now hp hc _ =>
    obtain ⟨sent,c,reach,hflush,hrest,_⟩ :=
      (h.keeps (h.still hp)).flush now threshold minWindow
    simp only [hflush,hrest.acked]
    exact Int.le_refl _
  | @heed frame silence now hl _ _ =>
    cases he : x.outbox.established with
    | false =>
      have hn := Outbox.acknowledge_of_not_established he frame.fragment frame.window now
      simp only [hn]
      exact Int.le_refl _
    | true => exact ((h.keeps he).acknowledge_bounds frame.fragment frame.window now).2

theorem Turn.established (ht : Turn hears asking threshold x es y) (h : Conduct x ds)
    (he : x.outbox.established = true) :
    y.outbox.established = true ∧ x.outbox.window ≤ y.outbox.window := by
  have hk := h.keeps he
  cases ht with
  | mark hm =>
    rw [hm.outbox]
    exact ⟨he,Int32.le_refl _⟩
  | request _ => exact ⟨he,Int32.le_refl _⟩
  | hold k _ _ _ _ => exact ⟨he,Int32.le_refl _⟩
  | leave _ _ _ => exact ⟨he,Int32.le_refl _⟩
  | accept _ _ _ hne =>
    rw [Outbox.not_established_of_establish hne] at he
    cases he
  | pump now _ _ _ =>
    obtain ⟨sent,c,reach,hflush,hrest,_⟩ := hk.flush now threshold minWindow
    simp only [hflush,hrest.window]
    exact ⟨hrest.keeps.established,Int32.le_refl _⟩
  | @heed frame silence now _ _ _ =>
    have hk' := hk.acknowledge frame.fragment frame.window now
    refine ⟨hk'.established,?_⟩
    by_cases hw : x.outbox.lastAcked.toInt ≤ frame.fragment.toInt ∧
        frame.fragment.toInt ≤ x.outbox.highestSent.toInt
    · simp only [hk.acknowledge_of_within frame.window now hw.1 hw.2]
      exact (Outbox.widen_eq _ _).1
    · have ho : x.outbox.acknowledge frame.fragment frame.window now = (0,x.outbox) :=
        hk.acknowledge_of_outside frame.window now (by omega)
      simp only [ho]
      exact Int32.le_refl _

theorem Turn.stays (ht : Turn hears asking threshold x es y) :
    y.bound = x.bound ∧ y.remote = x.remote ∧ (x.closed = true → y.closed = true) ∧
      (x.closing = true → y.closing = true) := by
  cases ht with
  | mark hm => exact ⟨hm.bound,hm.remote,hm.closed,hm.closing⟩
  | request _ => exact ⟨rfl,rfl,fun h => h,fun h => h⟩
  | hold k _ _ _ _ => exact ⟨rfl,rfl,fun h => h,fun h => h⟩
  | leave _ _ _ => exact ⟨rfl,rfl,fun h => h,fun _ => rfl⟩
  | accept _ _ _ _ => exact ⟨rfl,rfl,fun h => h,fun h => h⟩
  | pump now _ _ _ => exact ⟨rfl,rfl,fun h => h,fun h => h⟩
  | heed _ _ _ => exact ⟨rfl,rfl,fun h => h,fun h => h⟩

theorem Turns.stays (ht : Turns hears asking threshold x es y) :
    y.bound = x.bound ∧ y.remote = x.remote ∧ (x.closed = true → y.closed = true) ∧
      (x.closing = true → y.closing = true) := by
  induction ht with
  | done => exact ⟨rfl,rfl,fun h => h,fun h => h⟩
  | next h _ ih =>
    obtain ⟨h₁,h₂,h₃,h₄⟩ := h.stays
    exact ⟨ih.1.trans h₁,ih.2.1.trans h₂,fun hx => ih.2.2.1 (h₃ hx),fun hx => ih.2.2.2 (h₄ hx)⟩

/-- A connection that is torn down, and for which no call asks, does nothing more. -/
theorem Turns.over (ht : Turns hears asking threshold x es y) (hc : x.closed = true)
    (hl : x.listening = false) (hp : x.pumping = false) (ha : ¬ asking) : es = [] := by
  induction ht with
  | done => rfl
  | next h _ ih =>
    have hc' := h.stays.2.2.1 hc
    cases h with
    | mark hm =>
      refine ih hc' ?_ ?_
      · exact Bool.eq_false_iff.mpr fun h => by
          rw [hm.deaf h] at hl
          cases hl
      · exact Bool.eq_false_iff.mpr fun h => by
          rw [hm.still h] at hp
          cases hp
    | request h => exact absurd h ha
    | hold k _ ho _ _ =>
      rw [hc] at ho
      cases ho
    | leave _ ho _ =>
      rw [hc] at ho
      cases ho
    | accept hl' _ _ _ =>
      rw [hl] at hl'
      cases hl'
    | pump now hp' _ _ =>
      rw [hp] at hp'
      cases hp'
    | heed hl' _ _ =>
      rw [hl] at hl'
      cases hl'

theorem Turn.mono {more : Frame → Prop} {still : Prop} (h : Turn hears asking threshold x es y)
    (hm : ∀ frame, hears frame → more frame) (ha : asking → still) :
    Turn more still threshold x es y := by
  cases h with
  | mark hmark => exact .mark hmark
  | request h => exact .request (ha h)
  | hold k he ho hroom hs => exact .hold k he ho hroom hs
  | leave he ho hd => exact .leave he ho hd
  | accept hl hf hk he => exact .accept hl (hm _ hf) hk he
  | pump now hp hc ho => exact .pump now hp hc ho
  | heed hl hf hk => exact .heed hl (hm _ hf) hk

theorem Turns.mono {more : Frame → Prop} (ht : Turns hears asking threshold x es y)
    (hm : ∀ frame, hears frame → more frame) : Turns more True threshold x es y := by
  induction ht with
  | done => exact .done
  | next h _ ih => exact .next (h.mono hm fun _ => trivial) ih

theorem Turns.conduct (ht : Turns hears asking threshold x es y) (h : Conduct x ds)
    (hfew : (payloads (ds ++ es)).length < fragmentLimit) :
    Conduct y (ds ++ es) ∧
      (x.outbox.established = true → y.outbox.established = true) := by
  induction ht generalizing ds with
  | done =>
    rw [List.append_nil]
    exact ⟨h,fun he => he⟩
  | @next x y z es fs ht _ ih =>
    have hfew' : (payloads (ds ++ es)).length < fragmentLimit := by
      simp only [payloads_append,List.length_append] at hfew ⊢
      omega
    have hy := ht.conduct h hfew'
    rw [← List.append_assoc] at hfew ⊢
    obtain ⟨hz,he⟩ := ih hy hfew
    exact ⟨hz,fun hx => he (ht.established h hx).1⟩

theorem Turns.acked_le (ht : Turns hears asking threshold x es y) (h : Conduct x ds)
    (hfew : (payloads (ds ++ es)).length < fragmentLimit) :
    x.outbox.lastAcked.toInt ≤ y.outbox.lastAcked.toInt := by
  induction ht generalizing ds with
  | done => exact Int.le_refl _
  | @next x y z es fs ht _ ih =>
    have hfew' : (payloads (ds ++ es)).length < fragmentLimit := by
      simp only [payloads_append,List.length_append] at hfew ⊢
      omega
    rw [← List.append_assoc] at hfew
    exact Int.le_trans (ht.acked_le h) (ih (ht.conduct h hfew') hfew)

end

end Connection
end ReliableTransport
