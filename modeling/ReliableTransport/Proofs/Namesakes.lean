import ReliableTransport.Proofs.Chronicle
import ReliableTransport.Proofs.Ledger

/-! Connections of one number. Numbers begin again when 32 bits run out, and the table knows an open
connection by its number alone; so the connection made as many binds later as there are numbers
takes the place of one that is still open, and when the older one is torn down at last the younger
one leaves the table. Whoever is in the table is the youngest of its number (`Named`), so that
nothing else can come between two connections (`Names`). -/
namespace ReliableTransport

theorem Dict.length_erase {κ β : Type} [DecidableEq κ] {d : Dict κ β} (h : d.keys.Nodup) {a : κ}
    {b : β} (hget : d.get? a = some b) : (d.erase a).length + 1 = d.length := by
  induction d with
  | nil => cases hget
  | cons e d ih =>
    obtain ⟨k,v⟩ := e
    obtain ⟨hk,hd⟩ := List.nodup_cons.mp h
    by_cases hka : k = a
    · subst hka
      have hrest : Dict.erase ((k,v) :: d) k = Dict.erase d k := by simp [Dict.erase]
      rw [hrest,Dict.erase_of_not_mem hk,List.length_cons]
    · have hrest : Dict.erase ((k,v) :: d) a = (k,v) :: Dict.erase d a := by simp [Dict.erase,hka]
      rw [Dict.get?,if_neg hka] at hget
      rw [hrest,List.length_cons,List.length_cons,ih hd hget]

theorem Table.Trim.size_insert {t : Table} (h : t.Trim) (id : ConnId) (c : ConnRef) :
    (t.insert id c).size = t.size + if (t.get? id).isSome then 0 else 1 := by
  have hentries : (t.insert id c).entries = t.entries.erase id ++ [(id,c)] := rfl
  rw [size,hentries,List.length_append,List.length_singleton,size]
  cases hget : t.get? id with
  | none =>
    rw [Dict.erase_of_not_mem (Dict.not_mem_keys_iff.mpr hget)]
    rfl
  | some b => exact Dict.length_erase h.nodup hget

namespace Sender

variable {s t : Sender} {m : Move} {c d : ConnRef} {id : ConnId} {x : Connection} {n : Nat}

theorem number_eq_iff {i j : Nat} : number i = number j ↔ i % UInt32.size = j % UInt32.size := by
  rw [← UInt32.toNat_inj,number,number,UInt32.toNat_ofNat',UInt32.toNat_ofNat']
  unfold UInt32.size
  omega

/-- Whoever is in the table is there under its number, and none made later has it. -/
structure Named (s : Sender) : Prop where
  rostered : s.Rostered
  trim : s.table.Trim
  young : ∀ id c, s.table.get? id = some c →
    id = number c ∧ c < s.conns.length ∧ s.conns.length ≤ c + UInt32.size

theorem named_start (settings : Settings) : (start settings).Named :=
  ⟨rostered_start settings,Table.trim_empty,fun _ _ h => by cases h⟩

theorem Rostered.allocate (h : s.Rostered) :
    s.table.allocate.1 = Sender.number s.conns.length := by
  show s.table.lastId + 1 = UInt32.ofNat (s.conns.length + 1)
  rw [h.last,UInt32.ofNat_add]
  rfl

theorem Rostered.get?_made (h : s.Rostered)
    (ht : t.table = s.table.allocate.2.insert s.table.allocate.1 s.conns.length) (id : ConnId) :
    t.table.get? id = if id = Sender.number s.conns.length then some s.conns.length
      else s.table.get? id := by
  rw [ht,h.allocate]
  exact Dict.get?_insert ..

/-- Two of those that can be in the table at a time have one number only if they are just as many
binds apart as there are numbers. -/
theorem eq_add_size_of_number {i j : Nat} (hlt : i < j) (hle : j ≤ i + UInt32.size)
    (h : number i = number j) : i + UInt32.size = j := by
  rw [number_eq_iff] at h
  unfold UInt32.size at *
  omega

/-- Of two of one number of which the first can be in the table, it is no older. -/
theorem eq_add_mul_of_number {i j : Nat} (hlt : j < i + UInt32.size)
    (h : number i = number j) : ∃ k, i = j + k*UInt32.size := by
  rw [number_eq_iff] at h
  refine ⟨(i - j)/UInt32.size,?_⟩
  unfold UInt32.size at *
  omega

theorem eq_of_few {i j k n : Nat} (h : i = j + k*UInt32.size) (hi : i < n)
    (hn : n < UInt32.size) : i = j := by
  cases k with
  | zero => rwa [Nat.zero_mul] at h
  | succ k =>
    rw [Nat.succ_mul] at h
    omega

theorem number_add_size (c : ConnRef) : number (c + UInt32.size) = number c := by
  rw [number_eq_iff,Nat.add_mod_right]

/-- Of those in the table only the one made as many binds ago as there are numbers has the next. -/
theorem Named.get?_next (h : s.Named) : s.table.get? (number s.conns.length) = some c ↔
    c + UInt32.size = s.conns.length ∧ s.table.get? (number c) = some c := by
  constructor
  · intro hget
    obtain ⟨hid,hlt,hle⟩ := h.young _ c hget
    exact ⟨eq_add_size_of_number hlt hle hid.symm,hid ▸ hget⟩
  · rintro ⟨hn,hget⟩
    rw [← hn,number_add_size]
    exact hget

theorem Idle.binds_eq (h : s.Idle m) : binds [m] = 0 := by
  cases m with
  | retry k => rfl
  | event e =>
    cases e with
    | connect bound remote refused now =>
      cases refused with
      | some cause => rfl
      | none => exact h.elim
    | _ => rfl

theorem Named.make (h : s.Named) (m : Move) : (s.make m).1.Named := by
  refine ⟨h.rostered.make m,trim_make h.trim m,fun id c hget => ?_⟩
  have hu := s.make_upheaval m
  have hlen := make_length s m
  generalize (s.make m).1 = t at hu hlen hget
  have hkept : t.conns.length = s.conns.length → s.table.get? id = some c →
      id = number c ∧ c < t.conns.length ∧ t.conns.length ≤ c + UInt32.size :=
    fun hl hget => hl.symm ▸ h.young id c hget
  cases hu with
  | rest hi ht _ => exact hkept (hlen.trans (by rw [hi.binds_eq,Nat.add_zero])) (ht ▸ hget)
  | opened _ _ _ _ _ ht _ => exact hkept hlen (ht ▸ hget)
  | left _ _ ht _ => exact hkept hlen (ht ▸ hget)
  | lapsed _ _ _ ht _ =>
    rw [ht,get?_remove] at hget
    split at hget
    · cases hget
    · exact hkept hlen hget
  | shut ht _ =>
    rw [ht] at hget
    cases hget
  | @made bound remote now ht hc =>
    have hl : t.conns.length = s.conns.length + 1 := by
      rw [hc,List.length_append,List.length_singleton]
    rw [h.rostered.get?_made ht] at hget
    split at hget
    · rename_i hid
      obtain rfl := Option.some.inj hget
      rw [hl]
      exact ⟨hid,Nat.lt_succ_self _,Nat.add_le_add_left (by decide) _⟩
    · rename_i hid
      obtain ⟨hnumber,hlt,hle⟩ := h.young id c hget
      have hne : s.conns.length ≠ c + UInt32.size := by
        intro he
        rw [he,number_add_size] at hid
        exact hid hnumber
      rw [hl]
      exact ⟨hnumber,Nat.lt_succ_of_lt hlt,Nat.lt_of_le_of_ne hle hne⟩

theorem named_play (settings : Settings) (ms : List Move) :
    ((start settings).play ms).1.Named :=
  chain_induct (named_start settings) (fun _ ht m => ht.make m) ms

def Lists (s : Sender) (c : ConnRef) : Prop := s.table.get? (number c) = some c

/-- The bind of a connection of a number that another one in the table has. -/
def Replaces (s : Sender) (m : Move) (c : ConnRef) : Prop :=
  ∃ bound remote now, m = .event (.connect bound remote none now) ∧
    c + UInt32.size = s.conns.length

def Finishes (s : Sender) (m : Move) (d : ConnRef) : Prop :=
  m = .event (.tick d) ∧ ∃ x, s.conns[d]? = some x ∧ x.checking = true ∧
    (x.silence.tick s.settings.period).expired = true

/-- Which moves take a connection out of the table: one that takes out all, the bind of a namesake,
and the end of it or of an older namesake. -/
theorem Named.gone (h : s.Named) (hin : s.Lists c) (hout : ¬ (s.make m).1.Lists c) :
    m = .event .close ∨ s.Replaces m c ∨ ∃ d k, s.Finishes m d ∧ c = d + k*UInt32.size := by
  have hu := s.make_upheaval m
  have hlen := make_length s m
  unfold Lists at hin hout
  generalize (s.make m).1 = t at hu hlen hout
  obtain ⟨-,hlt,hle⟩ := h.young _ c hin
  cases hu with
  | rest _ ht _ => exact absurd (ht ▸ hin) hout
  | opened _ _ _ _ _ ht _ => exact absurd (ht ▸ hin) hout
  | left _ _ ht _ => exact absurd (ht ▸ hin) hout
  | shut => exact .inl rfl
  | @made bound remote now ht hc =>
    refine .inr (.inl ⟨bound,remote,now,rfl,eq_add_size_of_number hlt hle ?_⟩)
    rw [h.rostered.get?_made ht] at hout
    exact Decidable.byContradiction fun hne => hout (by rw [if_neg hne,hin])
  | @lapsed d x hx hch he ht _ =>
    have hdlt := (List.getElem?_eq_some_iff.mp hx).1
    rw [ht,get?_remove,h.rostered.numbered hx] at hout
    have hnumber : number c = number d :=
      Decidable.byContradiction fun hne => hout (by rw [if_neg hne,hin])
    obtain ⟨k,hk⟩ := eq_add_mul_of_number (Nat.lt_of_lt_of_le hdlt hle) hnumber
    exact .inr (.inr ⟨d,k,⟨rfl,x,hx,hch,he⟩,hk⟩)

theorem Named.lists_of_finishes (h : s.Named) (hm : s.Finishes m d) (hn : number c = number d) :
    ¬ (s.make m).1.Lists c := by
  obtain ⟨rfl,x,hx,hch,he⟩ := hm
  have hu := s.make_upheaval (.event (.tick d))
  unfold Lists
  generalize (s.make (.event (.tick d))).1 = t at hu
  cases hu with
  | rest hi _ _ =>
    rw [hi x hx hch] at he
    cases he
  | lapsed hy _ _ ht _ =>
    rw [ht,get?_remove,h.rostered.numbered hy,if_pos hn]
    exact fun hno => by cases hno

/-- How the connections of a sender that has made `n` come between each other. -/
structure Names (s : Sender) (n : Nat) : Prop where
  next : s.table.allocate.1 = number n
  /-- The next number is taken exactly if the connection made as many binds ago as there are numbers
  is still in the table. -/
  taken : ∀ c, s.table.get? (number n) = some c ↔ c + UInt32.size = n ∧ s.Lists c
  grows : ∀ bound remote now,
    (s.make (.event (.connect bound remote none now))).1.Lists n ∧
      (s.make (.event (.connect bound remote none now))).1.table.size =
        s.table.size + if (s.table.get? (number n)).isSome then 0 else 1
  /-- Whoever leaves the table does so by a call to close all, by a namesake's bind, or by the end
  of itself or of an older namesake. -/
  leaves : ∀ m c, s.Lists c → ¬ (s.make m).1.Lists c →
    m = .event .close ∨ s.Replaces m c ∨ ∃ d k, s.Finishes m d ∧ c = d + k*UInt32.size
  ends : ∀ m d c, s.Finishes m d → number c = number d → ¬ (s.make m).1.Lists c
  few : n < UInt32.size → s.table.get? (number n) = none ∧
    ∀ m c, s.Lists c → ¬ (s.make m).1.Lists c → m = .event .close ∨ s.Finishes m c

theorem Named.names (h : s.Named) (hn : s.conns.length = n) : s.Names n where
  next := hn ▸ h.rostered.allocate
  taken := fun c => hn ▸ h.get?_next
  grows := by
    intro bound remote now
    have ht : (s.make (.event (.connect bound remote none now))).1.table =
        s.table.allocate.2.insert s.table.allocate.1 s.conns.length := by
      rw [Sender.make,react,onConnect_eq]
    refine ⟨?_,?_⟩
    · rw [Lists,h.rostered.get?_made ht,hn,if_pos rfl]
    · rw [ht,← hn,← h.rostered.allocate]
      exact Table.Trim.size_insert (t := s.table.allocate.2) ⟨h.trim.nodup,h.trim.storage⟩ _ _
  leaves := fun m c => h.gone
  ends := fun m d c => h.lists_of_finishes
  few := by
    intro hlt
    refine ⟨?_,fun m c hin hout => ?_⟩
    · cases hget : s.table.get? (number n) with
      | none => rfl
      | some c =>
        obtain ⟨hfar,-⟩ := h.get?_next.mp (hn.symm ▸ hget)
        exact absurd (hn ▸ hfar ▸ Nat.le_add_left UInt32.size c) (Nat.not_le.mpr hlt)
    · obtain ⟨-,hc,-⟩ := h.young _ c hin
      rcases h.gone hin hout with hm | ⟨_,_,_,-,hfar⟩ | ⟨d,k,hm,hfar⟩
      · exact .inl hm
      · exact absurd (hn ▸ hfar ▸ Nat.le_add_left UInt32.size c) (Nat.not_le.mpr hlt)
      · obtain rfl := eq_of_few hfar hc (hn ▸ hlt)
        exact .inr hm

/-- However long a sender lives, two of its connections come between each other only if they are a
multiple of as many binds apart as there are numbers. -/
theorem names_along_play (settings : Settings) (ms : List Move) :
    ((start settings).play ms).1.Names (binds ms) := by
  have hlen := play_length (start settings) ms
  exact (named_play settings ms).names (by rwa [start,List.length_nil,Nat.zero_add] at hlen)

def bind (bound remote : Address) : Move := .event (.connect bound remote none 0)

theorem conns_bind (s : Sender) (bound remote : Address) :
    (s.make (bind bound remote)).1.conns = s.conns ++
      [Connection.start s.table.allocate.1 bound remote s.settings.threshold 0] := by
  rw [bind,make,react,onConnect_eq]

theorem conns_bind_of_some (hx : s.conns[c]? = some x) (bound remote : Address) :
    (s.make (bind bound remote)).1.conns[c]? = some x := by
  rw [conns_bind,List.getElem?_append_left (List.getElem?_eq_some_iff.mp hx).1]
  exact hx

theorem own_of_le (h : s.conns.length ≤ UInt32.size) (hc : c < s.conns.length) : s.Own c := by
  intro d hd hn
  rw [number_eq_iff,Nat.mod_eq_of_lt (Nat.lt_of_lt_of_le hd h),
    Nat.mod_eq_of_lt (Nat.lt_of_lt_of_le hc h)] at hn
  exact hn

/-- What becomes of two connections of one number: the younger one replaces the older one, which is
still open, and is taken out of the table, still open, at the end of the older one. -/
structure Collides (s : Sender) (bound remote : Address) (c d : ConnRef) : Prop where
  next : d = s.conns.length
  before : s.Lists c
  replaced : (s.make (bind bound remote)).1.Lists d ∧
    (s.make (bind bound remote)).1.table.size = s.table.size
  older : ∃ f, (s.make (bind bound remote)).1.look c = some f ∧ f.closed = false
  removed : ¬ ((s.make (bind bound remote)).1.make (.event (.tick c))).1.Lists d
  younger : ∃ f, ((s.make (bind bound remote)).1.make (.event (.tick c))).1.look d = some f ∧
    f.closed = false

theorem look_tick_of_ne (s : Sender) (h : d ≠ c) :
    (s.make (.event (.tick c))).1.look d = s.look d := by
  have hu := s.make_upheaval (.event (.tick c))
  generalize (s.make (.event (.tick c))).1 = t at hu
  cases hu with
  | rest _ _ hl => exact hl d
  | lapsed _ _ _ _ hc => exact (hc d).trans (if_neg h)

/-- A connection that is in the table when all the other numbers have been given. -/
theorem Named.collides (h : s.Named) (hlen : c + UInt32.size = s.conns.length) (hin : s.Lists c)
    (hx : s.conns[c]? = some x) (hopen : x.closed = false) (hch : x.checking = true)
    (he : (x.silence.tick s.settings.period).expired = true) (bound remote : Address) :
    s.Collides bound remote c s.conns.length := by
  have hne : s.conns.length ≠ c := Nat.ne_of_gt (List.getElem?_eq_some_iff.mp hx).1
  have hnumber : number s.conns.length = number c := by rw [← hlen,number_add_size]
  have htaken : s.table.get? (number s.conns.length) = some c := h.get?_next.mpr ⟨hlen,hin⟩
  obtain ⟨hlists,hsize⟩ := (h.names rfl).grows bound remote 0
  rw [htaken] at hsize
  have hx' := conns_bind_of_some hx bound remote
  have hy : (s.make (bind bound remote)).1.conns[s.conns.length]? =
      some (Connection.start s.table.allocate.1 bound remote s.settings.threshold 0) := by
    rw [conns_bind]
    exact List.getElem?_concat_length
  have hfinishes : (s.make (bind bound remote)).1.Finishes (.event (.tick c)) c := by
    refine ⟨rfl,x,hx',hch,?_⟩
    rw [make_settings]
    exact he
  exact {
    next := rfl
    before := hin
    replaced := ⟨hlists,hsize⟩
    older := ⟨x.face,look_eq hx',hopen⟩
    removed := (h.make _).lists_of_finishes hfinishes hnumber
    younger := ⟨_,(look_tick_of_ne _ hne).trans (look_eq hy),rfl⟩ }

def crowd (bound remote : Address) (n : Nat) : List Move :=
  [bind bound remote,.event (.datagram 0 remote (Frame.encode ⟨.acon,0,2000,[]⟩) 0)] ++
    List.replicate n (bind bound remote)

theorem binds_crowd (bound remote : Address) (n : Nat) : binds (crowd bound remote n) = n + 1 := by
  rw [crowd,binds_append,binds,binds,List.countP_replicate,
    if_pos (show isBind (bind bound remote) = true from rfl)]
  exact Nat.add_comm 1 n

theorem conns_crowd (bound remote : Address) (n : Nat)
    (hx : (s.play (crowd bound remote 0)).1.conns[c]? = some x) :
    (s.play (crowd bound remote n)).1.conns[c]? = some x := by
  induction n with
  | zero => exact hx
  | succ n ih =>
    have hlast : crowd bound remote (n + 1) = crowd bound remote n ++ [bind bound remote] := by
      rw [crowd,crowd,List.replicate_succ',List.append_assoc]
    rw [hlast,play_append]
    exact conns_bind_of_some ih bound remote

theorem settings_play (s : Sender) (ms : List Move) : (s.play ms).1.settings = s.settings :=
  chain_induct (P := fun t : Sender => t.settings = s.settings) rfl
    (fun t ht m => (make_settings t m).trans ht) ms

def hasty : Settings := ⟨.zero,.ofMillis 1,.zero⟩

/-- When as many connections are open as there are numbers, the next one replaces the first, which
is open as well, and at the end of the first one the next is taken out of the table. -/
theorem names_collide :
    let here : Address := ⟨.localhost,0,4001⟩
    let there : Address := ⟨.localhost,0,4000⟩
    ((start hasty).play (crowd here there (UInt32.size - 1))).1.Collides here there 0
      UInt32.size := by
  intro here there
  obtain ⟨x,hx,hseen⟩ := Option.map_eq_some_iff.mp
    (show (((start hasty).play (crowd here there 0)).1.conns[0]?.map fun x =>
      (x.closed,x.checking,(x.silence.tick hasty.period).expired)) = some (false,true,true) by
        decide +kernel)
  obtain ⟨hopen,hch,he⟩ : x.closed = false ∧ x.checking = true ∧
      (x.silence.tick hasty.period).expired = true := by simpa using hseen
  have hnamed := named_play hasty (crowd here there (UInt32.size - 1))
  have hlen := play_length (start hasty) (crowd here there (UInt32.size - 1))
  have hsettings := settings_play (start hasty) (crowd here there (UInt32.size - 1))
  have hx' := conns_crowd here there (UInt32.size - 1) hx
  rw [binds_crowd] at hlen
  generalize ((start hasty).play (crowd here there (UInt32.size - 1))).1 = s at *
  have hall : s.conns.length = UInt32.size := hlen
  have hin : s.Lists 0 := hnamed.rostered.listed 0 _ (look_eq hx') hopen
    (own_of_le (Nat.le_of_eq hall) (List.getElem?_eq_some_iff.mp hx').1)
  rw [← hall]
  exact hnamed.collides (by rw [Nat.zero_add,hall]) hin hx' hopen hch (by rw [hsettings]; exact he)
    here there

end Sender
end ReliableTransport
