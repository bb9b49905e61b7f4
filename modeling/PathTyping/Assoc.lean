/-!
# Association lists

Lists of pairs read as finite maps: the first pair of a key counts.  `insert` puts its pair in
front of the others and takes an older pair of the key away, so what `insert` builds has each key
once.

1. `find?_insert_self`, `find?_insert_of_ne`: what an insertion changes.
2. `mem_keys_insert`: an insertion adds its key to the keys.
3. `nodup_keys_insert`: keys that occur once do so after an insertion.
-/

namespace PathTyping

abbrev Assoc (κ ν : Type) := List (κ × ν)

namespace Assoc

variable {κ ν : Type}

def keys (m : Assoc κ ν) : List κ := m.map Prod.fst

@[simp] theorem keys_nil : keys ([] : Assoc κ ν) = [] := rfl

@[simp] theorem keys_cons (p : κ × ν) (m : Assoc κ ν) : keys (p :: m) = p.1 :: keys m := rfl

variable [DecidableEq κ]

def find? : Assoc κ ν → κ → Option ν
  | [], _ => none
  | (k, v) :: rest, key => if k = key then some v else find? rest key

def erase : Assoc κ ν → κ → Assoc κ ν
  | [], _ => []
  | (k, v) :: rest, key => if k = key then erase rest key else (k, v) :: erase rest key

def insert (m : Assoc κ ν) (key : κ) (value : ν) : Assoc κ ν :=
  (key, value) :: if (find? m key).isSome then erase m key else m

@[simp] theorem find?_nil (key : κ) : find? ([] : Assoc κ ν) key = none := rfl

theorem find?_cons (p : κ × ν) (rest : Assoc κ ν) (key : κ) :
    find? (p :: rest) key = if p.1 = key then some p.2 else find? rest key := rfl

@[simp] theorem erase_nil (key : κ) : erase ([] : Assoc κ ν) key = [] := rfl

theorem erase_cons (p : κ × ν) (rest : Assoc κ ν) (key : κ) :
    erase (p :: rest) key = if p.1 = key then erase rest key else p :: erase rest key := rfl

theorem find?_eq_none_iff {m : Assoc κ ν} {key : κ} : find? m key = none ↔ key ∉ keys m := by
  induction m with
  | nil => simp
  | cons p rest ih =>
    obtain ⟨k, v⟩ := p
    by_cases h : k = key
    · simp [find?_cons, h]
    · have h' : ¬ key = k := fun e => h e.symm
      simp [find?_cons, h, h', ih]

theorem mem_of_find? {m : Assoc κ ν} {key : κ} {value : ν} (h : find? m key = some value) :
    (key, value) ∈ m := by
  induction m with
  | nil => simp at h
  | cons p rest ih =>
    obtain ⟨k, v⟩ := p
    by_cases hk : k = key
    · rw [find?_cons, if_pos hk] at h
      cases h
      exact hk ▸ List.mem_cons_self
    · rw [find?_cons, if_neg hk] at h
      exact List.mem_cons_of_mem _ (ih h)

theorem find?_of_mem {m : Assoc κ ν} {key : κ} {value : ν} (once : (keys m).Nodup)
    (h : (key, value) ∈ m) : find? m key = some value := by
  induction m with
  | nil => cases h
  | cons p rest ih =>
    obtain ⟨k, v⟩ := p
    obtain ⟨new, once⟩ := List.nodup_cons.1 once
    rcases List.mem_cons.1 h with same | later
    · cases same
      rw [find?_cons, if_pos rfl]
    · have other : k ≠ key := fun same => new (List.mem_map.2 ⟨_, later, same.symm⟩)
      rw [find?_cons, if_neg other, ih once later]

theorem erase_of_find?_eq_none {m : Assoc κ ν} {key : κ} (h : find? m key = none) :
    erase m key = m := by
  induction m with
  | nil => rfl
  | cons p rest ih =>
    obtain ⟨k, v⟩ := p
    by_cases hk : k = key
    · simp [find?_cons, hk] at h
    · rw [find?_cons, if_neg hk] at h
      rw [erase_cons, if_neg hk, ih h]

theorem insert_eq (m : Assoc κ ν) (key : κ) (value : ν) :
    insert m key value = (key, value) :: erase m key := by
  unfold insert
  cases h : find? m key with
  | none => simp [erase_of_find?_eq_none h]
  | some _ => simp

theorem find?_erase_of_ne (m : Assoc κ ν) {key other : κ} (h : key ≠ other) :
    find? (erase m key) other = find? m other := by
  induction m with
  | nil => rfl
  | cons p rest ih =>
    obtain ⟨k, v⟩ := p
    by_cases hk : k = key
    · subst hk; simp [erase_cons, find?_cons, h, ih]
    · simp only [erase_cons, if_neg hk, find?_cons, ih]

@[simp] theorem find?_insert_self (m : Assoc κ ν) (key : κ) (value : ν) :
    find? (insert m key value) key = some value := by simp [insert_eq, find?_cons]

theorem find?_insert_of_ne (m : Assoc κ ν) {key other : κ} (value : ν) (h : key ≠ other) :
    find? (insert m key value) other = find? m other := by
  simp [insert_eq, find?_cons, h, find?_erase_of_ne m h]

theorem mem_keys_erase {m : Assoc κ ν} {key k : κ} :
    k ∈ keys (erase m key) ↔ k ≠ key ∧ k ∈ keys m := by
  induction m with
  | nil => simp
  | cons p rest ih =>
    obtain ⟨l, v⟩ := p
    by_cases h : l = key
    · subst h
      simp only [erase_cons, if_true, keys_cons, List.mem_cons, ih]
      exact ⟨fun ⟨hk, hm⟩ => ⟨hk, .inr hm⟩, fun ⟨hk, hm⟩ => ⟨hk, hm.resolve_left hk⟩⟩
    · simp only [erase_cons, if_neg h, keys_cons, List.mem_cons, ih]
      constructor
      · rintro (rfl | ⟨hk, hm⟩)
        · exact ⟨h, .inl rfl⟩
        · exact ⟨hk, .inr hm⟩
      · rintro ⟨hk, rfl | hm⟩
        · exact .inl rfl
        · exact .inr ⟨hk, hm⟩

theorem mem_keys_insert {m : Assoc κ ν} {key k : κ} {value : ν} :
    k ∈ keys (insert m key value) ↔ k = key ∨ k ∈ keys m := by
  rw [insert_eq, keys_cons, List.mem_cons, mem_keys_erase]
  constructor
  · rintro (h | h)
    · exact .inl h
    · exact .inr h.2
  · intro h
    by_cases hk : k = key
    · exact .inl hk
    · exact .inr ⟨hk, h.resolve_left hk⟩

theorem nodup_keys_erase {m : Assoc κ ν} (h : (keys m).Nodup) (key : κ) :
    (keys (erase m key)).Nodup := by
  induction m with
  | nil => exact h
  | cons p rest ih =>
    obtain ⟨k, v⟩ := p
    rw [keys_cons, List.nodup_cons] at h
    by_cases hk : k = key
    · simpa [erase_cons, hk] using ih h.2
    · rw [erase_cons, if_neg hk, keys_cons, List.nodup_cons]
      exact ⟨fun hm => h.1 (mem_keys_erase.1 hm).2, ih h.2⟩

theorem nodup_keys_insert {m : Assoc κ ν} (h : (keys m).Nodup) (key : κ) (value : ν) :
    (keys (insert m key value)).Nodup := by
  rw [insert_eq, keys_cons, List.nodup_cons]
  exact ⟨fun hm => (mem_keys_erase.1 hm).1 rfl, nodup_keys_erase h key⟩

theorem mem_of_mem_erase {m : Assoc κ ν} {key : κ} {p : κ × ν} (h : p ∈ erase m key) :
    p ∈ m := by
  induction m with
  | nil => exact h
  | cons q rest ih =>
    rw [erase_cons] at h
    split at h
    · exact List.mem_cons_of_mem _ (ih h)
    · rcases List.mem_cons.1 h with rfl | h
      · exact List.mem_cons_self
      · exact List.mem_cons_of_mem _ (ih h)

theorem mem_insert {m : Assoc κ ν} {key : κ} {value : ν} {p : κ × ν}
    (h : p ∈ insert m key value) : p = (key, value) ∨ p ∈ m := by
  rw [insert_eq] at h
  exact (List.mem_cons.1 h).imp_right mem_of_mem_erase

end Assoc

end PathTyping
