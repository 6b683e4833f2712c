import ReliableTransport.Proofs.Chronicle

/-! The remote of a connection accepts once. The first frame that answers the request to connect
opens the connection, and as long as few payloads are pushed on it no later one does so again
(`Handshaken`, `handshaken_play`). -/
namespace ReliableTransport
namespace Connection

open Sender (Settings)

def Happening.greets : Happening → Bool
  | .heard frame => frame.kind = .acon
  | _ => false

def greeted (log : List Happening) : Bool := log.any (·.greets)

@[simp] theorem greeted_append (log more : List Happening) :
    greeted (log ++ more) = (greeted log || greeted more) :=
  List.any_append

def OpenedOnce (log : List Happening) : Prop :=
  ∃ early frame late, log = early ++ .heard frame :: .opened :: late ∧ frame.kind = .acon ∧
    greeted early = false ∧ .opened ∉ early ∧ .opened ∉ late

theorem OpenedOnce.append {log more : List Happening} (h : OpenedOnce log) (hm : .opened ∉ more) :
    OpenedOnce (log ++ more) := by
  obtain ⟨early,frame,late,rfl,hk,hg,he,hl⟩ := h
  refine ⟨early,frame,late ++ more,by simp,hk,hg,he,?_⟩
  rw [List.mem_append,not_or]
  exact ⟨hl,hm⟩

theorem OpenedOnce.opened {log : List Happening} (h : OpenedOnce log) : .opened ∈ log := by
  obtain ⟨early,frame,late,rfl,_⟩ := h
  simp

/-- A connection to which `log` has happened and what it knows of its remote. -/
structure Handshaken (x : Connection) (log : List Happening) : Prop where
  fresh : x.outbox.established = false → greeted log = false ∧ .opened ∉ log
  once : x.outbox.established = true → OpenedOnce log

theorem Handshaken.opened_iff {x : Connection} {log : List Happening} (h : Handshaken x log) :
    .opened ∈ log ↔ x.outbox.established = true := by
  cases he : x.outbox.established with
  | true => exact ⟨fun _ => rfl,fun _ => (h.once he).opened⟩
  | false => exact ⟨fun ho => absurd ho (h.fresh he).2,fun ht => by cases ht⟩

theorem handshaken_start (id : ConnId) (bound remote : Address) (threshold : Duration) (now : Nat) :
    Handshaken (start id bound remote threshold now) [.sent requestFrame] where
  fresh := fun _ => ⟨rfl,by simp⟩
  once := fun he => by
    rw [start,(Outbox.untouched_start now).not_established] at he
    cases he

section

variable {settings : Settings} {asking lasting : Prop} {x y : Connection}
  {log hs : List Happening}

/-- A stroke opens the connection, or it leaves it as open as it was. -/
inductive Opens (x : Connection) (hs : List Happening) (y : Connection) : Prop
  | stay (ho : .opened ∉ hs)
      (hf : x.outbox.established = false → y.outbox.established = false ∧ greeted hs = false)
  | opened {frame : Frame} (hh : hs = [.heard frame,.opened]) (hk : frame.kind = .acon)
      (he : x.outbox.established = false) (hy : y.outbox.established = true)

theorem Stroke.opens (h : Stroke settings asking lasting x hs y) : Opens x hs y := by
  cases h with
  | drain => exact .stay (by simp) fun he => ⟨he,rfl⟩
  | stop _ => exact .stay (by simp) fun he => ⟨he,rfl⟩
  | ask _ => exact .stay (by simp) fun he => ⟨he,rfl⟩
  | hold k _ _ _ _ =>
    exact .stay (by simp) fun he => ⟨he,by simp [greeted,Happening.greets]⟩
  | leave _ _ _ => exact .stay (by simp) fun he => ⟨he,rfl⟩
  | accept _ hk he =>
    refine .opened rfl hk (Outbox.not_established_of_establish he) ?_
    rw [Outbox.establish,if_neg (by simp [Outbox.not_established_of_establish he])] at he
    rw [← Option.some.inj he]
    rfl
  | @ignore frame _ _ he =>
    refine .stay (by simp) fun hn => ⟨hn,?_⟩
    rw [greeted,List.any_cons,List.any_nil,Bool.or_false]
    refine decide_eq_false fun hk => ?_
    rw [hn] at he
    cases he hk
  | pump now _ _ _ =>
    refine .stay (by simp) fun he => ⟨?_,by simp [greeted,Happening.greets]⟩
    simp only [Outbox.established,Outbox.flush,(Outbox.burst_keeps _ _ _ _ _).1] at he ⊢
    exact he
  | heed _ hk =>
    refine .stay (by simp) fun he => ⟨?_,by simp [greeted,Happening.greets,hk]⟩
    rw [Outbox.acknowledge_of_not_established he]
    exact he
  | dismiss _ hk => exact .stay (by simp) fun he => ⟨he,by simp [greeted,Happening.greets,hk]⟩
  | pass _ => exact .stay (by simp) fun he => ⟨he,rfl⟩
  | wait _ _ => exact .stay (by simp) fun he => ⟨he,rfl⟩
  | lapse _ _ => exact .stay (by simp) fun he => ⟨he,rfl⟩
  | shut => exact .stay (by simp) fun he => ⟨he,rfl⟩

/-- A connection that was opened once is not opened again as long as it stays accepted. -/
theorem Handshaken.stroke (h : Handshaken x log) (hs' : Stroke settings asking lasting x hs y)
    (hstays : x.outbox.established = true → y.outbox.established = true) :
    Handshaken y (log ++ hs) := by
  cases hs'.opens with
  | stay ho hf =>
    refine ⟨fun hy => ?_,fun hy => ?_⟩
    · cases he : x.outbox.established with
      | true =>
        rw [hstays he] at hy
        cases hy
      | false =>
        obtain ⟨hg,hn⟩ := h.fresh he
        rw [greeted_append,hg,(hf he).2,List.mem_append,not_or]
        exact ⟨rfl,hn,ho⟩
    · cases he : x.outbox.established with
      | true => exact (h.once he).append ho
      | false =>
        rw [(hf he).1] at hy
        cases hy
  | @opened frame hh hk he hy =>
    obtain ⟨hg,hn⟩ := h.fresh he
    rw [hh]
    refine ⟨fun hf => ?_,fun _ => ⟨log,frame,[],rfl,hk,hg,hn,by simp⟩⟩
    rw [hy] at hf
    cases hf

end

end Connection

namespace Sender

open Connection

/-- As long as few payloads are pushed on it, every connection of every play is opened once. -/
theorem handshaken_play (settings : Settings) (ms : List Move) (c : ConnRef)
    (hf : Few (chronicle c (start settings) ms)) :
    ∀ x, ((start settings).play ms).1.conns[c]? = some x →
      Handshaken x (chronicle c (start settings) ms) :=
  chronicle_induct settings ms c
    (fun id bound remote now => handshaken_start id bound remote settings.threshold now)
    fun _ _ _ _ hc h hs => h.stroke hs (hs.once.conduct hf (hc hf).1 (hc hf).2).2

end Sender
end ReliableTransport
