import Mathlib.Data.List.Basic
import ReliableTransport.Proofs.Handshake

/-! How wide the remote's window is. Someone who only listens to a connection's line can tell: the
first acceptance counts, and of the acknowledgements after it those for a fragment from the one
acknowledged last to the highest one sent (`Gauge`). The connection knows exactly the widest of the
windows that count, and no payload goes out before that is wide enough for a whole one (`Gauged`). -/
namespace ReliableTransport

namespace Outbox

open Sender (minWindow dataFrame)
open Signed

variable {b : Outbox} {pushed : List Bytes}

theorem foldl_reach_numbered {k : Nat} {reach : Int} (pieces : List Bytes) (hk : k ≤ reach)
    (hfew : k + pieces.length ≤ fragmentLimit) :
    ((numbered k pieces).map dataFrame).foldl (fun n frame => max n frame.fragment.toInt) reach =
      max reach (k + pieces.length : Nat) := by
  induction pieces generalizing k reach with
  | nil =>
    rw [numbered,List.map_nil,List.foldl_nil,List.length_nil]
    omega
  | cons piece pieces ih =>
    rw [List.length_cons] at hfew ⊢
    rw [numbered,List.map_cons,List.foldl_cons,ih (by rw [dataFrame,toInt_ofNat]; all_goals omega)
      (by omega),dataFrame,toInt_ofNat (by omega)]
    omega

theorem Keeps.flush_reach (h : b.Keeps pushed) (now threshold : Nat) :
    ((b.flush now minWindow threshold).1.map dataFrame).foldl
        (fun n frame => max n frame.fragment.toInt) b.highestSent.toInt =
      (b.flush now minWindow threshold).2.highestSent.toInt := by
  by_cases hw : minWindow ≤ b.window
  · obtain ⟨c,hflush,hrest⟩ := h.flush_of_open now threshold hw
    have hcursor := h.cursor_eq
    have h₁ := h.acked
    have h₂ := h.sent_le
    have h₃ := h.acked_le
    have h₄ := h.highest_le
    have h₅ := h.few
    rw [hflush,foldl_reach_numbered _ (by omega) (by rw [List.length_drop]; omega),
      hrest.highest,List.length_drop]
    omega
  · obtain ⟨c,hflush,hrest⟩ := h.flush_of_shut now threshold hw
    rw [hflush,hrest.highest]
    rfl

/-- A flush sends payloads only into a window that is wide enough for each of them. -/
theorem Keeps.wide_of_flush (h : b.Keeps pushed) {now threshold : Nat} {piece : Int32 × Bytes}
    (hp : piece ∈ (b.flush now minWindow threshold).1) :
    minWindow ≤ b.window ∧ piece.1 ≠ Frame.keepAlive := by
  by_cases hw : minWindow ≤ b.window
  · refine ⟨hw,fun hlife => ?_⟩
    obtain ⟨sent,c,reach,hflush,hrest,_,hsent⟩ := h.flush now threshold minWindow
    rw [hflush] at hp
    obtain ⟨i,_,hn,hi⟩ := hsent piece hp
    have hlt := (List.getElem?_eq_some_iff.mp hi).1
    have hfew := h.few
    have hpos := toInt_ofNat (show i + 1 ≤ fragmentLimit by omega)
    rw [← hn,hlife,show Frame.keepAlive.toInt = -1 by decide] at hpos
    omega
  · obtain ⟨c,hflush,_⟩ := h.flush_of_shut now threshold hw
    rw [hflush] at hp
    cases hp

end Outbox

namespace Connection

open Sender (Settings minWindow dataFrame signal)

/-- What the line tells of a connection. -/
structure Gauge where
  opened : Bool
  acked : Int
  /-- The highest fragment sent; the number of a sign of life is below all of them. -/
  reached : Int
  granted : List Int32
  deriving DecidableEq

namespace Gauge

def zero : Gauge := ⟨false,0,0,[]⟩

def read (g : Gauge) : Happening → Gauge
  | .heard frame =>
    match frame.kind with
    | .acon => if g.opened then g else ⟨true,0,0,[frame.window]⟩
    | .adat =>
      if g.opened ∧ g.acked ≤ frame.fragment.toInt ∧ frame.fragment.toInt ≤ g.reached then
        { g with acked := frame.fragment.toInt, granted := g.granted ++ [frame.window] }
      else g
    | _ => g
  | .sent frame =>
    if frame.kind = .data then { g with reached := max g.reached frame.fragment.toInt } else g
  | _ => g

def widest (g : Gauge) : Int := g.granted.foldl (fun n window => max n window.toInt) 0

end Gauge

def gauge (log : List Happening) : Gauge := log.foldl Gauge.read .zero

theorem gauge_append (log more : List Happening) :
    gauge (log ++ more) = more.foldl Gauge.read (gauge log) :=
  List.foldl_append

/-- A connection sends nothing but signs of life until the window is wide enough. -/
def Gated (log : List Happening) : Prop :=
  ∀ before frame after, log = before ++ .sent frame :: after → frame.kind = .data →
    frame = lifeFrame ∨
      (frame.fragment ≠ Frame.keepAlive ∧ (Frame.maxPayload : Int) ≤ (gauge before).widest)

section

variable {x y : Connection} {log hs : List Happening} {g : Gauge}

theorem Gauge.widest_concat (g : Gauge) (window : Int32) :
    ({ g with granted := g.granted ++ [window] } : Gauge).widest =
      max g.widest window.toInt := by
  simp [widest]

theorem Gauge.widest_nonneg (g : Gauge) : 0 ≤ g.widest := by
  have h : ∀ (ws : List Int32) (n : Int), 0 ≤ n →
      0 ≤ ws.foldl (fun n window => max n window.toInt) n := by
    intro ws
    induction ws with
    | nil => exact fun _ hn => hn
    | cons w ws ih => exact fun n hn => ih _ (Int.le_trans hn (Int.le_max_left _ _))
  exact h g.granted 0 (Int.le_refl 0)

def Gauge.Blank (g : Gauge) : Prop := g.opened = false → g.granted = []

theorem Gauge.Blank.read (h : g.Blank) (a : Happening) : (g.read a).Blank := by
  unfold Gauge.read
  split
  · split
    · split
      · exact h
      · exact fun ho => by cases ho
    · split
      · rename_i hc
        exact fun ho => by simp [hc.1] at ho
      · exact h
    · exact h
  · split
    · exact h
    · exact h
  · exact h

theorem Gauge.Blank.widest_le_read (h : g.Blank) (a : Happening) :
    g.widest ≤ (g.read a).widest := by
  unfold Gauge.read
  split
  · rename_i frame
    split
    · split
      · exact Int.le_refl _
      · rename_i ho
        rw [show g.widest = 0 by rw [widest,h (Bool.not_eq_true _ ▸ ho)]; rfl]
        exact widest_nonneg _
    · split
      · show g.widest ≤ ({ g with granted := g.granted ++ [frame.window] } : Gauge).widest
        rw [widest_concat]
        exact Int.le_max_left _ _
      · exact Int.le_refl _
    · exact Int.le_refl _
  · split
    · exact Int.le_refl _
    · exact Int.le_refl _
  · exact Int.le_refl _

theorem Gauge.Blank.foldl (h : g.Blank) (hs : List Happening) :
    (hs.foldl Gauge.read g).Blank ∧ g.widest ≤ (hs.foldl Gauge.read g).widest := by
  induction hs generalizing g with
  | nil => exact ⟨h,Int.le_refl _⟩
  | cons a hs ih =>
    obtain ⟨hb,hle⟩ := ih (h.read a)
    exact ⟨hb,Int.le_trans (h.widest_le_read a) hle⟩

theorem widest_mono (log more : List Happening) :
    (gauge log).widest ≤ (gauge (log ++ more)).widest := by
  rw [gauge_append]
  have hb : (gauge log).Blank := (Gauge.Blank.foldl (g := .zero) (fun _ => rfl) log).1
  exact (hb.foldl more).2

/-- What goes out leaves the windows alone, and may move the highest fragment sent. -/
theorem Gauge.foldl_sent (frames : List Frame) (hk : ∀ frame ∈ frames, frame.kind = .data)
    (g : Gauge) : (frames.map .sent).foldl Gauge.read g =
      { g with reached := frames.foldl (fun n frame => max n frame.fragment.toInt) g.reached } := by
  induction frames generalizing g with
  | nil => rfl
  | cons frame frames ih =>
    rw [List.map_cons,List.foldl_cons,ih fun f hf => hk f (List.mem_cons_of_mem _ hf)]
    simp [Gauge.read,hk frame List.mem_cons_self]

theorem Gated.append (h : Gated log)
    (hnow : ∀ early frame late, hs = early ++ .sent frame :: late → frame.kind = .data →
      frame = lifeFrame ∨ (frame.fragment ≠ Frame.keepAlive ∧
        (Frame.maxPayload : Int) ≤ (gauge (log ++ early)).widest)) : Gated (log ++ hs) := by
  intro before frame after hsplit hk
  rcases List.append_eq_append_iff.mp hsplit with ⟨mid,rfl,hlate⟩ | ⟨mid,rfl,hlate⟩
  · exact hnow mid frame after hlate hk
  · cases mid with
    | nil => simpa using hnow [] frame after hlate.symm hk
    | cons a mid =>
      obtain ⟨rfl,rfl⟩ := List.cons.inj hlate
      exact h before frame mid rfl hk

/-- A connection to which `log` has happened, and what the line tells of it. -/
structure Gauged (x : Connection) (log : List Happening) : Prop where
  opened : (gauge log).opened = x.outbox.established
  acked : x.outbox.established = true → (gauge log).acked = x.outbox.lastAcked.toInt
  reached : x.outbox.established = true → (gauge log).reached = x.outbox.highestSent.toInt
  window : (gauge log).widest = x.outbox.window.toInt
  gated : Gated log

theorem gauged_start (id : ConnId) (bound remote : Address) (threshold : Duration) (now : Nat) :
    Gauged (start id bound remote threshold now) [.sent requestFrame] where
  opened := (Outbox.untouched_start now).not_established.symm
  acked := fun he => by
    rw [start,(Outbox.untouched_start now).not_established] at he
    cases he
  reached := fun he => by
    rw [start,(Outbox.untouched_start now).not_established] at he
    cases he
  window := rfl
  gated := by
    intro before frame after h hk
    cases before with
    | nil =>
      rw [← Happening.sent.inj (List.cons.inj h).1] at hk
      cases hk
    | cons a before => simp at h

theorem Gauged.quiet (h : Gauged x log) (hg : hs.foldl Gauge.read (gauge log) = gauge log)
    (hd : ∀ frame, .sent frame ∈ hs → frame.kind ≠ .data)
    (ha : y.outbox.lastAcked = x.outbox.lastAcked)
    (hh : y.outbox.highestSent = x.outbox.highestSent)
    (hw : y.outbox.window = x.outbox.window) : Gauged y (log ++ hs) := by
  have he : y.outbox.established = x.outbox.established := by
    rw [Outbox.established,ha]
    rfl
  refine ⟨?_,?_,?_,?_,h.gated.append fun early frame late hsplit hk => ?_⟩
  · rw [gauge_append,hg,he,h.opened]
  · rw [gauge_append,hg,he,ha]
    exact h.acked
  · rw [gauge_append,hg,he,hh]
    exact h.reached
  · rw [gauge_append,hg,hw,h.window]
  · exact absurd hk (hd frame (hsplit ▸ List.mem_append_right _ List.mem_cons_self))

theorem toInt_widen (known heard : Int32) :
    (Outbox.widen known heard).toInt = max known.toInt heard.toInt := by
  unfold Outbox.widen
  split
  · rename_i hlt
    have := Int32.lt_iff_toInt_lt.mp hlt
    omega
  · rename_i hlt
    have := Int32.le_iff_toInt_le.mp (Int32.not_lt.mp hlt)
    omega

theorem Gauged.accept (h : Gauged x log) (hc : Conduct x (deeds log)) {frame : Frame} {now : Nat}
    {outbox : Outbox} (hk : frame.kind = .acon)
    (he : x.outbox.establish frame.window now = some outbox) (hy : y.outbox = outbox) :
    Gauged y (log ++ [.heard frame,.opened]) := by
  have hnew := Outbox.not_established_of_establish he
  have huntouched := (hc.untouched hnew).1
  rw [Outbox.establish,if_neg (by simp [hnew])] at he
  obtain rfl := Option.some.inj he
  have hread : gauge (log ++ [.heard frame,.opened]) = ⟨true,0,0,[frame.window]⟩ := by
    rw [gauge_append]
    simp [Gauge.read,hk,h.opened,hnew]
  refine ⟨?_,?_,?_,?_,h.gated.append fun early f late hsplit hk' => ?_⟩
  · rw [hread,hy]
    rfl
  · rw [hread,hy]
    exact fun _ => rfl
  · rw [hread,hy]
    exact fun _ => rfl
  · rw [hread,hy,toInt_widen,huntouched.window]
    rfl
  · have hm : Happening.sent f ∈ [Happening.heard frame,.opened] := by
      rw [hsplit]
      simp
    simp at hm

/-- An acknowledgement counts if it is for a fragment that may still be acknowledged. -/
theorem Gauged.heed (h : Gauged x log) (hc : Conduct x (deeds log)) {frame : Frame} (now : Nat)
    (hk : frame.kind = .adat)
    (hy : y.outbox = (x.outbox.acknowledge frame.fragment frame.window now).2) :
    Gauged y (log ++ [.heard frame]) := by
  cases he : x.outbox.established with
  | false =>
    rw [Outbox.acknowledge_of_not_established he] at hy
    refine h.quiet ?_ (by simp) (by rw [hy]) (by rw [hy]) (by rw [hy])
    simp [Gauge.read,hk,h.opened,he]
  | true =>
    have hkeeps := hc.keeps he
    have ha := h.acked he
    have hr := h.reached he
    by_cases hin : x.outbox.lastAcked.toInt ≤ frame.fragment.toInt ∧
        frame.fragment.toInt ≤ x.outbox.highestSent.toInt
    · rw [hkeeps.acknowledge_of_within frame.window now hin.1 hin.2] at hy
      have hread : gauge (log ++ [.heard frame]) =
          { gauge log with
            acked := frame.fragment.toInt
            granted := (gauge log).granted ++ [frame.window] } := by
        rw [gauge_append]
        simp [Gauge.read,hk,h.opened,he,ha,hr,hin]
      have hey : y.outbox.established = true := by
        have hpos := hkeeps.acked
        rw [hy,Outbox.established_eq_true_iff]
        simp only
        omega
      refine ⟨?_,?_,?_,?_,h.gated.append fun early f late hsplit hk' => ?_⟩
      · rw [hread,hey,h.opened.trans he]
      · rw [hread,hy]
        exact fun _ => rfl
      · rw [hread,hy]
        exact fun _ => hr
      · rw [hread]
        show ({ gauge log with granted := _ } : Gauge).widest = _
        rw [Gauge.widest_concat,h.window,hy,toInt_widen]
      · have hm : Happening.sent f ∈ [Happening.heard frame] := by
          rw [hsplit]
          simp
        simp at hm
    · rw [hkeeps.acknowledge_of_outside frame.window now (by omega)] at hy
      refine h.quiet ?_ (by simp) (by rw [hy]) (by rw [hy]) (by rw [hy])
      have hout : ¬ ((gauge log).acked ≤ frame.fragment.toInt ∧
          frame.fragment.toInt ≤ (gauge log).reached) := by rwa [ha,hr]
      simp only [List.foldl_cons,List.foldl_nil,Gauge.read,hk]
      rw [if_neg fun hcount => hout hcount.2]

/-- What the pump sends moves the highest fragment sent, and a payload goes only into a window that
is wide enough. -/
theorem Gauged.pump (h : Gauged x log) (hc : Conduct x (deeds log)) (hp : x.pumping = true)
    (now threshold : Nat) :
    Gauged { x with outbox := (x.outbox.flush now minWindow threshold).2 }
      (log ++ ((x.outbox.flush now minWindow threshold).1.map dataFrame ++ [lifeFrame]).map .sent)
      := by
  have he := hc.still hp
  have hkeeps := hc.keeps he
  have hreach := hkeeps.flush_reach now threshold
  have hwide : ∀ piece ∈ (x.outbox.flush now minWindow threshold).1,
      minWindow ≤ x.outbox.window ∧ piece.1 ≠ Frame.keepAlive :=
    fun _ hpiece => hkeeps.wide_of_flush hpiece
  obtain ⟨sent,c,reach,hflush,hrest,_⟩ := hkeeps.flush now threshold minWindow
  rw [hflush] at hreach hwide ⊢
  have hpos : 0 ≤ c.highestSent.toInt := Int.le_trans hrest.keeps.acked hrest.keeps.acked_le
  have hec : c.established = true := hrest.keeps.established
  have hread : gauge (log ++ (sent.map dataFrame ++ [lifeFrame]).map .sent) =
      { gauge log with reached := c.highestSent.toInt } := by
    rw [gauge_append,Gauge.foldl_sent _ fun frame hf => kind_of_pumped hf,List.foldl_append,
      h.reached he,hreach]
    simp only [List.foldl_cons,List.foldl_nil,signal,show Frame.keepAlive.toInt = -1 by decide]
    congr 1
    omega
  refine ⟨?_,?_,?_,?_,h.gated.append fun early f late hsplit _ => ?_⟩
  · rw [hread]
    exact h.opened.trans (he.trans hec.symm)
  · rw [hread]
    exact fun _ => (h.acked he).trans (by rw [hrest.acked])
  · rw [hread]
    exact fun _ => rfl
  · rw [hread]
    exact h.window.trans (by rw [hrest.window])
  · obtain ⟨first,others,hframes,rfl,hlater⟩ := List.map_eq_append_iff.mp hsplit
    have hearly : (gauge (log ++ first.map .sent)).widest = (gauge log).widest := by
      rw [gauge_append,Gauge.foldl_sent _ fun frame hf =>
        kind_of_pumped (hframes ▸ List.mem_append_left _ hf)]
      rfl
    have hf : f ∈ sent.map dataFrame ++ [lifeFrame] := by
      have hm : Happening.sent f ∈ others.map .sent := hlater ▸ List.mem_cons_self
      obtain ⟨g,hg,hgf⟩ := List.mem_map.mp hm
      rw [hframes,← Happening.sent.inj hgf]
      exact List.mem_append_right _ hg
    rcases List.mem_append.mp hf with hf | hf
    · obtain ⟨piece,hpiece,rfl⟩ := List.mem_map.mp hf
      obtain ⟨hw,hn⟩ := hwide piece hpiece
      have hle : minWindow.toInt ≤ x.outbox.window.toInt := Int32.le_iff_toInt_le.mp hw
      rw [hearly,h.window]
      exact .inr ⟨hn,hle⟩
    · exact .inl (List.mem_singleton.mp hf)

/-- Every stroke leaves what the line tells of a connection as it is known. -/
theorem Gauged.stroke {settings : Settings} {asking lasting : Prop} (h : Gauged x log)
    (hc : Conduct x (deeds log)) (hst : Stroke settings asking lasting x hs y) :
    Gauged y (log ++ hs) := by
  have hsame : ∀ {z : Connection}, z.outbox = x.outbox → hs.foldl Gauge.read (gauge log) =
      gauge log → (∀ frame, .sent frame ∈ hs → frame.kind ≠ .data) → Gauged z (log ++ hs) :=
    fun hz hg hd => h.quiet hg hd (by rw [hz]) (by rw [hz]) (by rw [hz])
  cases hst with
  | drain => exact hsame rfl rfl (by simp)
  | stop _ => exact hsame rfl rfl (by simp)
  | ask _ => exact hsame rfl rfl (by simp [signal])
  | hold k _ _ _ _ =>
    refine h.quiet ?_ (by simp) rfl rfl rfl
    rw [List.foldl_map]
    exact List.foldl_fixed _
  | leave _ _ _ => exact hsame rfl rfl (by simp [signal])
  | accept _ hk he => exact h.accept hc hk he rfl
  | ignore _ hk he =>
    refine hsame rfl ?_ (by simp)
    simp only [List.foldl_cons,List.foldl_nil,Gauge.read]
    split
    · rename_i hacon
      rw [if_pos (h.opened.trans (he hacon))]
    · exact absurd ‹_› hk.1
    · rfl
  | pump now hp _ _ => exact h.pump hc hp now _
  | heed _ hk => exact h.heed hc _ hk rfl
  | dismiss _ hk => exact hsame rfl (by simp [Gauge.read,hk]) (by simp)
  | pass _ => exact hsame rfl rfl (by simp)
  | wait _ _ => exact hsame rfl rfl (by simp)
  | lapse _ _ => exact hsame rfl rfl (by simp)
  | shut => exact hsame rfl rfl (by simp)

end

end Connection

namespace Sender

open Connection

/-- What a datagram brings to a connection does not count: it is from elsewhere, it is damaged, it
accepts once more, or it is for a fragment before the one acknowledged last or after the highest one
sent. -/
def Void (x : Connection) (source : Address) (raw : Bytes) : Prop :=
  source = x.remote → ∀ frame, Frame.receive raw = .ok frame →
    (frame.kind = .acon → x.outbox.established = true) ∧
      (frame.kind = .adat → x.outbox.established = true →
        frame.fragment.toInt < x.outbox.lastAcked.toInt ∨
          x.outbox.highestSent.toInt < frame.fragment.toInt)

theorem outbox_of_void {s : Sender} {c : ConnRef} {x : Connection} {ds : List Deed}
    (hx : s.conns[c]? = some x) (hc : Conduct x ds) {source : Address} {raw : Bytes}
    (hv : Void x source raw) (now : Nat) : ∃ y,
      (s.onDatagram c source raw now).1.conns[c]? = some y ∧ y.outbox = x.outbox := by
  unfold onDatagram
  simp only [hx]
  split
  · exact ⟨x,hx,rfl⟩
  · rename_i hg
    rw [Bool.or_eq_true,not_or,decide_eq_true_eq,Decidable.not_not] at hg
    split
    · exact ⟨x,hx,rfl⟩
    · rename_i frame hf
      obtain ⟨hacon,hadat⟩ := hv hg.2 frame hf
      split
      · rename_i hk
        rw [onAccept,Outbox.establish_of_established (hacon hk)]
        exact ⟨x,hx,rfl⟩
      · rename_i hk
        have hsame : x.outbox.acknowledge frame.fragment frame.window now = (0,x.outbox) := by
          cases he : x.outbox.established with
          | false => exact Outbox.acknowledge_of_not_established he _ _ _
          | true => exact (hc.keeps he).acknowledge_of_outside _ _ (hadat hk he)
        simp only [onAcknowledge,hsame]
        exact ⟨_,conns_modify_self hx _,rfl⟩
      · exact ⟨_,conns_modify_self hx _,rfl⟩
      · exact ⟨x,hx,rfl⟩

/-- The window of a connection is what its line tells of it, and the gate in front of the line. -/
structure Metered (settings : Settings) (ms : List Move) (c : ConnRef) : Prop where
  gauged : ∀ x, ((start settings).play ms).1.conns[c]? = some x →
    Gauged x (chronicle c (start settings) ms)
  rising : ∀ past rest x y, ms = past ++ rest →
    ((start settings).play past).1.conns[c]? = some x →
    ((start settings).play ms).1.conns[c]? = some y → x.outbox.window ≤ y.outbox.window
  /-- What does not count leaves it alone, and all else that is held for the connection. -/
  firm : ∀ past source raw now rest x,
    ms = past ++ .event (.datagram c source raw now) :: rest →
    ((start settings).play past).1.conns[c]? = some x → Void x source raw →
    ∃ y, (((start settings).play past).1.make (.event (.datagram c source raw now))).1.conns[c]? =
      some y ∧ y.outbox = x.outbox

/-- As long as few payloads are pushed on a connection, its window is the widest that counted among
those its remote stated, and no payload goes out before that is wide enough for a whole one. -/
theorem metered_along_play (settings : Settings) (ms : List Move) (c : ConnRef)
    (hf : Few (chronicle c (start settings) ms)) : Metered settings ms c := by
  have hgauged : ∀ ns, Few (chronicle c (start settings) ns) → ∀ x,
      ((start settings).play ns).1.conns[c]? = some x →
      Gauged x (chronicle c (start settings) ns) := fun ns hn =>
    chronicle_induct settings ns c
      (fun id bound remote now => gauged_start id bound remote settings.threshold now)
      fun _ _ _ _ hc h hs => h.stroke (hc hn).1 hs
  refine ⟨hgauged ms hf,?_,?_⟩
  · rintro past rest x y rfl hx hy
    have hy' := hgauged _ hf y hy
    rw [chronicle_append] at hf hy'
    rw [Int32.le_iff_toInt_le,← (hgauged past hf.of_append x hx).window,← hy'.window]
    exact widest_mono _ _
  · rintro past source raw now rest x rfl hx hv
    rw [chronicle_append] at hf
    exact outbox_of_void hx ((known_play settings past c).conduct hf.of_append x hx) hv now

/-- A byte waits for a window that the remote widens only later; a wider one that it states with an
acknowledgement of what was never sent does not count. -/
def widenLater (bound remote : Address) : List Move :=
  [.event (.connect bound remote none 0),
    .event (.datagram 0 remote (Frame.encode ⟨.acon,0,10,[]⟩) 0),.retry 0,
    .event (.send 1 [97]),.event (.wake 0 1),
    .event (.datagram 0 remote (Frame.encode ⟨.adat,1,9000,[]⟩) 2),.event (.wake 0 3),
    .event (.datagram 0 remote (Frame.encode ⟨.adat,0,2000,[]⟩) 4),.event (.wake 0 5)]

theorem metered_along_play_widenLater :
    let bound : Address := ⟨.localhost,0,4001⟩
    let remote : Address := ⟨.localhost,0,4000⟩
    let settings : Settings := ⟨.ofMillis 1500,.ofMillis 500,.ofMillis 100⟩
    Few (chronicle 0 (start settings) (widenLater bound remote)) ∧
      Metered settings (widenLater bound remote) 0 ∧
      (gauge (chronicle 0 (start settings) (widenLater bound remote))).granted = [10,2000] ∧
      frames (chronicle 0 (start settings) (widenLater bound remote)) =
        [requestFrame,lifeFrame,lifeFrame,lifeFrame,dataFrame (1,[97]),lifeFrame] := by
  intro bound remote settings
  have hf : Few (chronicle 0 (start settings) (widenLater bound remote)) := by
    unfold Few
    decide +kernel
  exact ⟨hf,metered_along_play settings _ 0 hf,by decide +kernel,by decide +kernel⟩

end Sender
end ReliableTransport
