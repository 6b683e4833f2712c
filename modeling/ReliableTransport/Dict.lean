/-! Finite maps as lists of pairs, oldest first. Putting a key anew drops its old entry, so no key
stands twice (`nodup_insert`, `nodup_erase`), and every operation is known by what `get?` says
after it (`get?_insert`, `get?_erase`). -/
namespace ReliableTransport

abbrev Dict (κ : Type) (β : Type) := List (κ × β)

namespace Dict

variable {κ β : Type} [DecidableEq κ]

/-- The value under a key. -/
def get? : Dict κ β → κ → Option β
  | [], _ => none
  | (k,b) :: d, a => if k = a then some b else get? d a

def erase (d : Dict κ β) (a : κ) : Dict κ β := d.filter fun e => e.1 ≠ a

def insert (d : Dict κ β) (a : κ) (b : β) : Dict κ β := d.erase a ++ [(a,b)]

def eraseAll (d : Dict κ β) (as : List κ) : Dict κ β := d.filter fun e => e.1 ∉ as

def keys (d : Dict κ β) : List κ := d.map (·.1)

@[simp] theorem get?_nil (a : κ) : get? ([] : Dict κ β) a = none := rfl

theorem get?_filter (d : Dict κ β) (p : κ → Bool) (a : κ) :
    get? (d.filter fun e => p e.1) a = if p a then get? d a else none := by
  induction d with
  | nil => simp
  | cons e d ih =>
    rcases e with ⟨k,b⟩
    by_cases hk : k = a
    · subst hk
      by_cases hp : p k <;> simp [hp,get?,ih]
    · by_cases hp : p k <;> simp [hp,get?,ih,hk]

theorem get?_erase (d : Dict κ β) (a c : κ) :
    (d.erase a).get? c = if c = a then none else d.get? c := by
  have h := get?_filter d (fun k => decide (k ≠ a)) c
  simp only [erase]
  rw [h]
  by_cases hc : c = a <;> simp [hc]

theorem get?_eraseAll (d : Dict κ β) (as : List κ) (c : κ) :
    (d.eraseAll as).get? c = if c ∈ as then none else d.get? c := by
  have h := get?_filter d (fun k => decide (k ∉ as)) c
  simp only [eraseAll]
  rw [h]
  by_cases hc : c ∈ as <;> simp [hc]

theorem get?_append (d e : Dict κ β) (a : κ) : get? (d ++ e) a = (get? d a).or (get? e a) := by
  induction d with
  | nil => simp
  | cons x d ih =>
    rcases x with ⟨k,b⟩
    by_cases hk : k = a <;> simp [get?,hk,ih]

theorem get?_insert (d : Dict κ β) (a : κ) (b : β) (c : κ) :
    (d.insert a b).get? c = if c = a then some b else d.get? c := by
  rw [insert,get?_append,get?_erase]
  by_cases hc : c = a
  · simp [hc,get?]
  · have hne : ¬ a = c := fun h => hc h.symm
    simp [hc,get?,hne]

theorem mem_of_get? {d : Dict κ β} {a : κ} {b : β} (h : d.get? a = some b) : (a,b) ∈ d := by
  induction d with
  | nil => simp at h
  | cons e d ih =>
    rcases e with ⟨k,c⟩
    by_cases hk : k = a
    · simp_all [get?]
    · exact List.mem_cons_of_mem _ (ih (by simpa [get?,hk] using h))

theorem get?_of_mem {d : Dict κ β} (hd : d.keys.Nodup) {a : κ} {b : β} (h : (a,b) ∈ d) :
    d.get? a = some b := by
  induction d with
  | nil => cases h
  | cons e d ih =>
    obtain ⟨k,c⟩ := e
    obtain ⟨hk,hd⟩ := List.nodup_cons.mp hd
    rcases List.mem_cons.mp h with he | hm
    · obtain ⟨rfl,rfl⟩ := Prod.mk.inj he
      exact if_pos rfl
    · have hne : ¬ k = a := by
        rintro rfl
        exact hk (List.mem_map.mpr ⟨_,hm,rfl⟩)
      rw [get?,if_neg hne,ih hd hm]

theorem mem_keys_iff {d : Dict κ β} {a : κ} : a ∈ d.keys ↔ (d.get? a).isSome := by
  induction d with
  | nil => simp [keys]
  | cons e d ih =>
    rcases e with ⟨k,b⟩
    simp only [keys,List.map_cons,List.mem_cons] at ih ⊢
    by_cases hk : k = a
    · simp [get?,hk]
    · have hne : ¬ a = k := fun h => hk h.symm
      simp [get?,hk,hne,ih]

theorem mem_keys_erase {d : Dict κ β} {a c : κ} : c ∈ (d.erase a).keys ↔ c ≠ a ∧ c ∈ d.keys := by
  rw [mem_keys_iff,mem_keys_iff,get?_erase]
  by_cases h : c = a <;> simp [h]

theorem mem_keys_eraseAll {d : Dict κ β} {as : List κ} {c : κ} :
    c ∈ (d.eraseAll as).keys ↔ c ∉ as ∧ c ∈ d.keys := by
  rw [mem_keys_iff,mem_keys_iff,get?_eraseAll]
  by_cases h : c ∈ as <;> simp [h]

theorem mem_keys_insert {d : Dict κ β} {a c : κ} {b : β} :
    c ∈ (d.insert a b).keys ↔ c = a ∨ c ∈ d.keys := by
  rw [mem_keys_iff,mem_keys_iff,get?_insert]
  by_cases h : c = a <;> simp [h]

theorem not_mem_keys_iff {d : Dict κ β} {a : κ} : a ∉ d.keys ↔ d.get? a = none := by
  rw [mem_keys_iff,Option.not_isSome_iff_eq_none]

theorem get?_of_erase {d e : Dict κ β} {k j : κ} (h : d.erase k = e.erase k) (hj : j ≠ k) :
    d.get? j = e.get? j := by
  have hget := congrArg (Dict.get? · j) h
  simp only [get?_erase,if_neg hj] at hget
  exact hget

theorem erase_of_not_mem {d : Dict κ β} {a : κ} (h : a ∉ d.keys) : d.erase a = d := by
  refine List.filter_eq_self.mpr fun e he => ?_
  rw [decide_eq_true_eq]
  rintro rfl
  exact h (List.mem_map.mpr ⟨e,he,rfl⟩)

theorem eraseP_eq_erase {d : Dict κ β} (hd : d.keys.Nodup) (a : κ) :
    d.eraseP (fun e => e.1 = a) = d.erase a := by
  induction d with
  | nil => rfl
  | cons e d ih =>
    obtain ⟨k,b⟩ := e
    obtain ⟨hk,hd⟩ := List.nodup_cons.mp hd
    by_cases ha : k = a
    · subst ha
      have hskip : erase ((k,b) :: d) k = erase d k := List.filter_cons_of_neg (by simp)
      rw [List.eraseP_cons_of_pos (by simp),hskip,erase_of_not_mem hk]
    · have hkeep : erase ((k,b) :: d) a = (k,b) :: erase d a :=
        List.filter_cons_of_pos (by simpa using ha)
      rw [List.eraseP_cons_of_neg (by simpa using ha),ih hd,hkeep]

theorem erase_concat (d : Dict κ β) (a : κ) (b : β) : erase (d ++ [(a,b)]) a = d.erase a := by
  simp [erase]

theorem erase_erase (d : Dict κ β) (a : κ) : (d.erase a).erase a = d.erase a := by
  simp [erase]

theorem erase_insert (d : Dict κ β) (a : κ) (b : β) : (d.insert a b).erase a = d.erase a := by
  rw [insert,erase_concat,erase_erase]

theorem nodup_erase {d : Dict κ β} (h : d.keys.Nodup) (a : κ) : (d.erase a).keys.Nodup :=
  h.sublist (List.filter_sublist.map _)

theorem nodup_eraseAll {d : Dict κ β} (h : d.keys.Nodup) (as : List κ) :
    (d.eraseAll as).keys.Nodup :=
  h.sublist (List.filter_sublist.map _)

theorem nodup_insert {d : Dict κ β} (h : d.keys.Nodup) (a : κ) (b : β) :
    (d.insert a b).keys.Nodup := by
  simp only [insert,keys,List.map_append,List.map_cons,List.map_nil]
  refine List.nodup_append.mpr ⟨nodup_erase h a,by simp,?_⟩
  intro x hx y hy
  simp only [List.mem_singleton] at hy
  subst hy
  rintro rfl
  have hm := mem_keys_iff.mp hx
  simp [get?_erase] at hm

end Dict
end ReliableTransport
