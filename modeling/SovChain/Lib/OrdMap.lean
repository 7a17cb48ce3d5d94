import Mathlib.Algebra.BigOperators.Group.List.Basic
import Mathlib.Algebra.Ring.Nat
import Mathlib.Data.List.Basic
import Mathlib.Data.List.Perm.Subperm
import Mathlib.Order.Basic
import Mathlib.Order.Lattice

/-!
# Ordered finite maps

A finite map over a linearly ordered key type, kept as its entry list in strictly increasing key
order. The order is a field of the structure, so a map has exactly one representation: two maps
with the same lookups are equal (`OrdMap.ext_get?`), and iterating over `entries` visits the keys in
order, as the ordered maps of most standard libraries do.

`OrdMap.sum` adds up a weight over all entries. `sum_insert` and `sum_erase` say what one update does
to it; they are the accounting rules of every "the counters add up" invariant.
-/

variable {κ ν : Type} [LinearOrder κ]

/-- A finite map with its entries in strictly increasing key order. -/
structure OrdMap (κ ν : Type) [LinearOrder κ] where
  /-- The entries, by key. -/
  entries : List (κ × ν)
  /-- Every key is below the keys after it. -/
  sorted : entries.Pairwise fun a b => a.1 < b.1

namespace OrdMap
variable {m : OrdMap κ ν}

theorem ext_entries {n : OrdMap κ ν} (h : m.entries = n.entries) : m = n := by
  cases m
  cases n
  cases h
  rfl

instance [DecidableEq ν] : DecidableEq (OrdMap κ ν) := fun m n =>
  decidable_of_iff (m.entries = n.entries) ⟨ext_entries, fun h => h ▸ rfl⟩

/-! ## Operations on entry lists -/

/-- The value stored at `k`. -/
def lookup (k : κ) : List (κ × ν) → Option ν
  | [] => none
  | e :: es => if e.1 = k then some e.2 else lookup k es

/-- Store `v` at `k`, replacing the entry of `k` if there is one. -/
def insertEntry (k : κ) (v : ν) : List (κ × ν) → List (κ × ν)
  | [] => [(k, v)]
  | e :: es =>
    if k < e.1 then (k, v) :: e :: es
    else if k = e.1 then (k, v) :: es
    else e :: insertEntry k v es

variable {l : List (κ × ν)} {k : κ} {v : ν}

theorem mem_insertEntry {e : κ × ν} (h : e ∈ insertEntry k v l) : e = (k, v) ∨ e ∈ l := by
  induction l with
  | nil => simpa [insertEntry] using h
  | cons x xs ih =>
    rw [insertEntry] at h
    split_ifs at h <;> simp only [List.mem_cons] at h ⊢ <;> grind

theorem insertEntry_sorted (h : l.Pairwise fun a b => a.1 < b.1) :
    (insertEntry k v l).Pairwise fun a b => a.1 < b.1 := by
  induction l with
  | nil => simp [insertEntry]
  | cons x xs ih =>
    obtain ⟨hx, hxs⟩ := List.pairwise_cons.mp h
    rw [insertEntry]
    split_ifs with hlt heq
    · refine List.pairwise_cons.mpr ⟨fun e he => ?_, h⟩
      rcases List.mem_cons.mp he with rfl | he
      · exact hlt
      · exact hlt.trans (hx e he)
    · exact List.pairwise_cons.mpr ⟨fun e he => heq ▸ hx e he, hxs⟩
    refine List.pairwise_cons.mpr ⟨fun e he => ?_, ih hxs⟩
    rcases mem_insertEntry he with rfl | he
    · exact lt_of_le_of_ne (not_lt.mp hlt) (Ne.symm heq)
    · exact hx e he

theorem lookup_insertEntry (k k' : κ) (v : ν) (l : List (κ × ν)) :
    lookup k' (insertEntry k v l) = if k = k' then some v else lookup k' l := by
  induction l with
  | nil => simp [insertEntry, lookup]
  | cons x xs ih =>
    rw [insertEntry]
    split_ifs with hlt heq hk hk hk <;> grind [lookup]

theorem lookup_filter (p : κ → Bool) (k : κ) (l : List (κ × ν)) :
    lookup k (l.filter fun e => p e.1) = if p k then lookup k l else none := by
  induction l with
  | nil => simp [lookup]
  | cons x xs ih =>
    by_cases hx : x.1 = k
    · subst hx
      by_cases hp : p x.1 <;> simp_all [lookup]
    · by_cases hp : p x.1 <;> simp_all [lookup]

theorem lookup_eq_some_iff (h : l.Pairwise fun a b => a.1 < b.1) : lookup k l = some v ↔ (k, v) ∈ l := by
  induction l with
  | nil => simp [lookup]
  | cons x xs ih =>
    obtain ⟨hx, hxs⟩ := List.pairwise_cons.mp h
    rw [lookup, List.mem_cons]
    split_ifs with hk
    · subst hk
      constructor
      · rintro ⟨rfl⟩
        exact .inl rfl
      · rintro (heq | hmem)
        · rw [← heq]
        · exact absurd (hx _ hmem) (lt_irrefl _)
    · rw [ih hxs]
      constructor
      · exact .inr
      · rintro (rfl | hmem)
        · exact absurd rfl hk
        · exact hmem

/-- Sorted entry lists with the same lookups are equal: both heads are the least key. -/
theorem eq_of_lookup_eq {l' : List (κ × ν)} (h : l.Pairwise fun a b => a.1 < b.1)
    (h' : l'.Pairwise fun a b => a.1 < b.1) (heq : ∀ k, lookup k l = lookup k l') : l = l' := by
  have hmem : ∀ e, e ∈ l ↔ e ∈ l' := fun e => by
    rw [← lookup_eq_some_iff (k := e.1) (v := e.2) h, heq, lookup_eq_some_iff h']
  have hnd : ∀ {m : List (κ × ν)}, (m.Pairwise fun a b => a.1 < b.1) → m.Nodup :=
    fun hm => hm.imp fun hab e => by subst e; exact lt_irrefl _ hab
  have hperm : l.Perm l' := (List.perm_ext_iff_of_nodup (hnd h) (hnd h')).mpr hmem
  exact hperm.eq_of_pairwise (fun a b _ _ hab hba => absurd hab (lt_asymm hba)) h h'

/-! ## The map operations -/

/-- The map with no entries. -/
def empty : OrdMap κ ν := ⟨[], List.Pairwise.nil⟩

instance : Inhabited (OrdMap κ ν) := ⟨empty⟩

/-- The value stored at `k`. -/
def get? (m : OrdMap κ ν) (k : κ) : Option ν := lookup k m.entries

/-- Whether some value is stored at `k`. -/
def contains (m : OrdMap κ ν) (k : κ) : Bool := (m.get? k).isSome

/-- Store `v` at `k`. -/
def insert (m : OrdMap κ ν) (k : κ) (v : ν) : OrdMap κ ν :=
  ⟨insertEntry k v m.entries, insertEntry_sorted m.sorted⟩

/-- Build an ordered map; a key that comes again replaces. -/
def collect (l : List (κ × ν)) : OrdMap κ ν := l.foldl (fun m e => m.insert e.1 e.2) empty

/-- Keep the entries whose key satisfies `p`. -/
def filterKeys (m : OrdMap κ ν) (p : κ → Bool) : OrdMap κ ν :=
  ⟨m.entries.filter fun e => p e.1, m.sorted.sublist List.filter_sublist⟩

/-- Remove the entry of `k`. -/
def erase (m : OrdMap κ ν) (k : κ) : OrdMap κ ν := m.filterKeys fun k' => k' ≠ k

/-- Store `v` at `k`, or remove the entry of `k` when `v` is `none`. -/
def set (m : OrdMap κ ν) (k : κ) : Option ν → OrdMap κ ν
  | some v => m.insert k v
  | none => m.erase k

/-- The sum of a weight over all entries. -/
def sum (m : OrdMap κ ν) (f : κ → ν → ℕ) : ℕ := (m.entries.map fun e => f e.1 e.2).sum

@[ext] theorem ext_get? {n : OrdMap κ ν} (h : ∀ k, m.get? k = n.get? k) : m = n :=
  ext_entries (eq_of_lookup_eq m.sorted n.sorted h)

@[simp, grind =] theorem get?_empty (k : κ) : (empty : OrdMap κ ν).get? k = none := rfl

theorem get?_eq_some_iff : m.get? k = some v ↔ (k, v) ∈ m.entries := lookup_eq_some_iff m.sorted

@[grind =] theorem get?_insert (m : OrdMap κ ν) (k k' : κ) (v : ν) :
    (m.insert k v).get? k' = if k = k' then some v else m.get? k' :=
  lookup_insertEntry k k' v m.entries

@[simp] theorem get?_insert_self (m : OrdMap κ ν) (k : κ) (v : ν) :
    (m.insert k v).get? k = some v := by simp [get?_insert]

@[grind =] theorem get?_filterKeys (m : OrdMap κ ν) (p : κ → Bool) (k : κ) :
    (m.filterKeys p).get? k = if p k then m.get? k else none :=
  lookup_filter p k m.entries

@[grind =] theorem get?_erase (m : OrdMap κ ν) (k k' : κ) :
    (m.erase k).get? k' = if k = k' then none else m.get? k' := by
  rw [erase, get?_filterKeys]
  by_cases h : k = k'
  · simp [h]
  · simp [h, Ne.symm h]

@[simp] theorem get?_erase_self (m : OrdMap κ ν) (k : κ) : (m.erase k).get? k = none := by
  simp [get?_erase]

@[grind =] theorem get?_set (m : OrdMap κ ν) (k k' : κ) (v : Option ν) :
    (m.set k v).get? k' = if k = k' then v else m.get? k' := by
  cases v with
  | none => exact get?_erase m k k'
  | some v => exact get?_insert m k k' v

@[simp] theorem get?_set_self (m : OrdMap κ ν) (k : κ) (v : Option ν) : (m.set k v).get? k = v := by simp [get?_set]

theorem get?_set_eq_some {k' : κ} {v : Option ν} {w : ν} (h : (m.set k v).get? k' = some w) :
    k = k' ∧ v = some w ∨ m.get? k' = some w := by
  rw [get?_set] at h
  split_ifs at h with hk
  · exact .inl ⟨hk, h⟩
  · exact .inr h

@[simp] theorem set_get? (m : OrdMap κ ν) (k : κ) : m.set k (m.get? k) = m := by
  ext1 k'
  rw [get?_set]
  split_ifs with h
  · rw [h]
  · rfl

@[simp] theorem set_set (m : OrdMap κ ν) (k : κ) (v w : Option ν) : (m.set k v).set k w = m.set k w := by
  ext1 k'
  simp only [get?_set]
  split_ifs <;> rfl

theorem insert_eq_set (m : OrdMap κ ν) (k : κ) (v : ν) : m.insert k v = m.set k (some v) := rfl

theorem erase_eq_set (m : OrdMap κ ν) (k : κ) : m.erase k = m.set k none := rfl

theorem erase_insert (h : m.get? k = none) (v : ν) : (m.insert k v).erase k = m := by
  rw [insert_eq_set, erase_eq_set, set_set, ← h, set_get?]

@[simp, grind =] theorem contains_eq (m : OrdMap κ ν) (k : κ) : m.contains k = (m.get? k).isSome := rfl

/-! ## Sets of keys -/

/-- The keys, in increasing order. -/
def keys (m : OrdMap κ ν) : List κ := m.entries.map Prod.fst

/-- The set of the elements of a list. -/
def ofKeys (l : List κ) : OrdMap κ Unit := l.foldl (fun m k => m.insert k ()) empty

theorem mem_keys : k ∈ m.keys ↔ (m.get? k).isSome := by
  simp only [keys, List.mem_map, Option.isSome_iff_exists, get?_eq_some_iff, Prod.exists,
    exists_and_right, exists_eq_right]

theorem nodup_keys (m : OrdMap κ ν) : m.keys.Nodup :=
  List.pairwise_map.mpr (m.sorted.imp ne_of_lt)

/-- Storing one value at many keys. -/
theorem get?_foldl_set {α : Type} (f : α → κ) (v : Option ν) (l : List α) (m : OrdMap κ ν) (k : κ) :
    (l.foldl (fun m a => m.set (f a) v) m).get? k = if k ∈ l.map f then v else m.get? k := by
  induction l generalizing m with
  | nil => simp
  | cons x xs ih =>
    rw [List.foldl_cons, ih, get?_set]
    by_cases hx : f x = k
    · simp [hx]
    · simp [hx, Ne.symm hx]

theorem get?_foldl_insert (l : List κ) (m : OrdMap κ Unit) (k : κ) :
    (l.foldl (fun m k => m.insert k ()) m).get? k = if k ∈ l then some () else m.get? k :=
  (get?_foldl_set id (some ()) l m k).trans (by rw [List.map_id])

theorem get?_foldl_erase (l : List κ) (m : OrdMap κ ν) (k : κ) :
    (l.foldl erase m).get? k = if k ∈ l then none else m.get? k :=
  (get?_foldl_set id none l m k).trans (by rw [List.map_id])

theorem mem_keys_ofKeys {l : List κ} : k ∈ (ofKeys l).keys ↔ k ∈ l := by
  rw [mem_keys, ofKeys, get?_foldl_insert]
  by_cases hk : k ∈ l <;> simp [hk]

theorem length_keys_ofKeys (l : List κ) : (ofKeys l).keys.length ≤ l.length :=
  (List.subperm_of_subset (nodup_keys _) fun _ h => mem_keys_ofKeys.mp h).length_le

theorem ofKeys_keys (m : OrdMap κ Unit) : ofKeys m.keys = m := by
  ext1 k
  rw [ofKeys, get?_foldl_insert]
  cases h : m.get? k with
  | none => rw [if_neg (by simp [mem_keys, h]), get?_empty]
  | some u => rw [if_pos (by simp [mem_keys, h])]

/-! ## Overlays -/

/-- Write the entries of one map over another. -/
def overlay {μ : Type} (f : μ → Option ν) (m : OrdMap κ ν) (n : OrdMap κ μ) : OrdMap κ ν :=
  n.entries.foldl (fun m e => m.set e.1 (f e.2)) m

theorem get?_overlay {μ : Type} (f : μ → Option ν) (m : OrdMap κ ν) (n : OrdMap κ μ) (k : κ) :
    (overlay f m n).get? k = (n.get? k).elim (m.get? k) f := by
  obtain ⟨l, hl⟩ := n
  simp only [overlay, get?]
  induction l generalizing m with
  | nil => rfl
  | cons x xs ih =>
    obtain ⟨hx, hxs⟩ := List.pairwise_cons.mp hl
    rw [List.foldl_cons, ih _ hxs, lookup]
    split_ifs with hk
    · -- The keys are distinct, so nothing later writes at `k`.
      have hnone : lookup k xs = none := by
        rw [Option.eq_none_iff_forall_ne_some]
        intro v hv
        exact absurd (hx _ ((lookup_eq_some_iff hxs).mp hv)) (by simp [hk])
      rw [hnone, ← hk]
      exact get?_set_self m x.1 (f x.2)
    · have := get?_set m x.1 k (f x.2)
      rw [if_neg hk] at this
      cases lookup k xs with
      | none => exact this
      | some v => rfl

theorem overlay_insert {μ : Type} (f : μ → Option ν) (m : OrdMap κ ν) (n : OrdMap κ μ) (k : κ) (v : μ) :
    overlay f m (n.insert k v) = (overlay f m n).set k (f v) := by
  ext1 k'
  rw [get?_overlay, get?_insert, get?_set, get?_overlay]
  split_ifs <;> rfl

theorem overlay_self {f : ν → Option ν} (h : ∀ k v, m.get? k = some v → f v = some v) : overlay f empty m = m := by
  ext1 k
  rw [get?_overlay]
  cases hk : m.get? k with
  | none => rfl
  | some v => exact h k v hk

theorem collect_entries (m : OrdMap κ ν) : collect m.entries = m := overlay_self fun _ _ _ => rfl

/-! ## Sums -/

/-- What the entry of `k`, if any, contributes to a sum. -/
def weightAt (m : OrdMap κ ν) (f : κ → ν → ℕ) (k : κ) : ℕ := (m.get? k).elim 0 (f k)

/-- Inserting trades the old contribution of the key for the new one. -/
theorem sum_insert (m : OrdMap κ ν) (f : κ → ν → ℕ) (k : κ) (v : ν) :
    (m.insert k v).sum f + m.weightAt f k = m.sum f + f k v := by
  obtain ⟨l, hl⟩ := m
  simp only [sum, insert, weightAt, get?]
  induction l with
  | nil => simp [insertEntry, lookup]
  | cons x xs ih =>
    obtain ⟨hx, hxs⟩ := List.pairwise_cons.mp hl
    have ih := ih hxs
    rw [insertEntry, lookup]
    split_ifs with hlt heq heq' heq' heq'
    · exact absurd heq (ne_of_gt hlt)
    · have hnone : lookup k xs = none := by
        rw [Option.eq_none_iff_forall_ne_some]
        intro w hw
        exact lt_asymm hlt (hx _ ((lookup_eq_some_iff hxs).mp hw))
      simp [hnone]
      omega
    · subst heq'
      simp
      omega
    · simp_all
    · simp_all
    · simp only [List.map_cons, List.sum_cons]
      omega

theorem sum_erase (m : OrdMap κ ν) (f : κ → ν → ℕ) (k : κ) : (m.erase k).sum f + m.weightAt f k = m.sum f := by
  cases hv : m.get? k with
  | none =>
    have : m.erase k = m := by
      ext1 k'
      rw [get?_erase]
      split_ifs with h
      · rw [← h, hv]
      · rfl
    rw [this, weightAt, hv]
    rfl
  | some v =>
    -- Putting the entry back gives the sum of `m`, and trades a contribution of zero.
    have hback : (m.erase k).insert k v = m := by
      rw [insert_eq_set, erase_eq_set, set_set, ← hv, set_get?]
    have := sum_insert (m.erase k) f k v
    rw [hback] at this
    simp only [weightAt, get?_erase_self, hv, Option.elim] at this ⊢
    omega

theorem sum_set (m : OrdMap κ ν) (f : κ → ν → ℕ) (k : κ) (v : Option ν) :
    (m.set k v).sum f + m.weightAt f k = m.sum f + v.elim 0 (f k) := by
  cases v with
  | none => simpa [set] using sum_erase m f k
  | some v => exact sum_insert m f k v

theorem weightAt_le_sum (m : OrdMap κ ν) (f : κ → ν → ℕ) (k : κ) : m.weightAt f k ≤ m.sum f := by
  have := sum_erase m f k
  omega

end OrdMap
