import Mathlib.Data.Nat.Bitwise
import Mathlib.Data.List.Basic
import Mathlib.Tactic

/-!
# The frontier of a fixed-depth hash tree

A tree over infinitely many leaves, all but the first few of them empty: `node f l i` is the hash of its `i`-th block of
`2 ^ l` leaves. The frontier keeps one hash per level, that of the last complete left sibling on the way up from the next
free leaf. Only the levels where the number of leaves has a one bit are meaningful; the others hold whatever was left
there. `rootFrom` folds the frontier into the root and `append` adds a leaf, and both agree with the full tree.
-/

namespace Frontier
variable {α : Type} (merge : α → α → α) (zero : α)

/-- The hash of an empty block of `2 ^ l` leaves. -/
def emptyLevel : ℕ → α
  | 0 => zero
  | l + 1 => merge (emptyLevel l) (emptyLevel l)

/-- The hash of the `i`-th block of `2 ^ l` leaves. -/
def node (f : ℕ → α) : ℕ → ℕ → α
  | 0, i => f i
  | l + 1, i => merge (node f l (2 * i)) (node f l (2 * i + 1))

/-- Fold the frontier from a level up; `i` is the number of complete blocks at that level and `acc` the hash of the next
one. -/
def rootFrom (level : ℕ) : List α → ℕ → α → α
  | [], _, acc => acc
  | ommer :: rest, i, acc =>
    rootFrom (level + 1) rest (i / 2)
      (if i % 2 = 1 then merge ommer acc else merge acc (emptyLevel merge zero level))

/-- Add the block `acc` after the first `i` of its level: it is put in the first free place, merged on the way with the
left siblings it completes. -/
def append : List α → ℕ → α → Option (List α)
  | [], _, _ => none
  | ommer :: rest, i, acc =>
    if i % 2 = 0 then some (acc :: rest) else (append rest (i / 2) (merge ommer acc)).map (ommer :: ·)

/-- The siblings on the way up from the `i`-th block of a level. -/
def siblings (f : ℕ → α) : ℕ → ℕ → ℕ → List α
  | 0, _, _ => []
  | n + 1, level, i => node merge f level (i ^^^ 1) :: siblings f n (level + 1) (i / 2)

/-- Hash upwards along siblings. -/
def climb : List α → ℕ → α → α
  | [], _, acc => acc
  | s :: rest, i, acc => climb rest (i / 2) (if i % 2 = 0 then merge acc s else merge s acc)

variable {merge zero} {f g : ℕ → α}

/-! ## Blocks of the tree -/

variable {l i : ℕ}

theorem node_congr (h : ∀ j, i * 2 ^ l ≤ j → j < (i + 1) * 2 ^ l → f j = g j) :
    node merge f l i = node merge g l i := by
  induction l generalizing i with
  | zero => exact h i (by omega) (by omega)
  | succ l ih =>
    have hpow : 2 ^ (l + 1) = 2 * 2 ^ l := Nat.pow_succ'
    unfold node
    rw [ih fun j hj hj' => h j (by rw [hpow]; nlinarith) (by rw [hpow]; nlinarith),
      ih fun j hj hj' => h j (by rw [hpow]; nlinarith) (by rw [hpow]; nlinarith)]

theorem node_empty (h : ∀ j, i * 2 ^ l ≤ j → f j = zero) : node merge f l i = emptyLevel merge zero l := by
  induction l generalizing i with
  | zero => exact h i (by omega)
  | succ l ih =>
    have hpow : 2 ^ (l + 1) = 2 * 2 ^ l := Nat.pow_succ'
    unfold node emptyLevel
    rw [ih fun j hj => h j (by rw [hpow]; nlinarith), ih fun j hj => h j (by rw [hpow]; nlinarith)]

theorem node_succ_odd (h : i % 2 = 1) :
    node merge f (l + 1) (i / 2) = merge (node merge f l (i - 1)) (node merge f l i) := by
  have hleft : 2 * (i / 2) = i - 1 := by omega
  have hright : 2 * (i / 2) + 1 = i := by omega
  rw [node, hleft, ← hleft, hright]

theorem node_succ_even (h : i % 2 = 0) :
    node merge f (l + 1) (i / 2) = merge (node merge f l i) (node merge f l (i + 1)) := by
  have hleft : 2 * (i / 2) = i := by omega
  rw [node, hleft]

/-! ## The frontier stands for the tree -/

/-- At each level where the number of complete blocks is odd, the frontier has the last one. -/
def Stands (merge : α → α → α) (f : ℕ → α) : ℕ → List α → ℕ → Prop
  | _, [], _ => True
  | level, ommer :: rest, i =>
    (i % 2 = 1 → ommer = node merge f level (i - 1)) ∧ Stands merge f (level + 1) rest (i / 2)

theorem stands_zero (level : ℕ) (ommers : List α) : Stands merge f level ommers 0 := by
  induction ommers generalizing level with
  | nil => trivial
  | cons ommer rest ih => exact ⟨fun h => absurd h (by decide), ih _⟩

/-- The complete blocks of the next level end no later. -/
theorem half_mul_le (i level : ℕ) : i / 2 * 2 ^ (level + 1) ≤ i * 2 ^ level := by
  rw [Nat.pow_succ', ← Nat.mul_assoc]
  exact Nat.mul_le_mul_right _ (Nat.div_mul_le_self i 2)

variable {ommers : List α} {level : ℕ}

theorem Stands.congr (h : Stands merge f level ommers i) (hfg : ∀ j < i * 2 ^ level, f j = g j) :
    Stands merge g level ommers i := by
  induction ommers generalizing level i with
  | nil => trivial
  | cons ommer rest ih =>
    refine ⟨fun hodd => ?_, ih h.2 fun j hj => hfg j ?_⟩
    · rw [h.1 hodd]
      refine node_congr fun j _ hj => hfg j ?_
      rwa [Nat.sub_add_cancel (by omega)] at hj
    · exact hj.trans_le (half_mul_le i level)

theorem rootFrom_eq {size : ℕ} (h : Stands merge f level ommers i) (hzero : ∀ j, size ≤ j → f j = zero)
    (hsize : size < (i + 1) * 2 ^ level) : rootFrom merge zero level ommers i (node merge f level i) =
      node merge f (level + ommers.length) (i / 2 ^ ommers.length) := by
  induction ommers generalizing level i with
  | nil => rw [rootFrom, List.length_nil, Nat.pow_zero, Nat.div_one, Nat.add_zero]
  | cons ommer rest ih =>
    have hblock : (i + 1) * 2 ^ level ≤ (i / 2 + 1) * 2 ^ (level + 1) := by
      rw [Nat.pow_succ', ← Nat.mul_assoc]
      exact Nat.mul_le_mul_right _ (by omega)
    have hup : (if i % 2 = 1 then merge ommer (node merge f level i)
        else merge (node merge f level i) (emptyLevel merge zero level)) = node merge f (level + 1) (i / 2) := by
      by_cases hodd : i % 2 = 1
      · rw [if_pos hodd, node_succ_odd hodd, h.1 hodd]
      -- The right sibling begins after the last leaf.
      have hright : node merge f level (i + 1) = emptyLevel merge zero level :=
        node_empty fun j hj => hzero j (by omega)
      rw [if_neg hodd, node_succ_even (by omega), hright]
    rw [rootFrom, hup, ih h.2 (by omega), List.length_cons, Nat.div_div_eq_div_mul, ← Nat.pow_succ']
    congr 1
    omega

theorem Stands.append {size : ℕ} {ommers' : List α} (h : Stands merge f level ommers i)
    (hfg : ∀ j < size, f j = g j) (hsize : size + 1 = (i + 1) * 2 ^ level)
    (happend : append merge ommers i (node merge g level i) = some ommers') : Stands merge g level ommers' (i + 1) := by
  induction ommers generalizing level i ommers' with
  | nil => cases happend
  | cons ommer rest ih =>
    have hpos : 0 < 2 ^ level := Nat.two_pow_pos level
    have hbelow : i * 2 ^ level ≤ size := by
      rw [Nat.succ_mul] at hsize
      omega
    rw [Frontier.append] at happend
    by_cases heven : i % 2 = 0
    · rw [if_pos heven] at happend
      cases happend
      have hhalf : (i + 1) / 2 = i / 2 := by omega
      refine ⟨fun _ => rfl, ?_⟩
      rw [hhalf]
      exact h.2.congr fun j hj => hfg j (hj.trans_le ((half_mul_le i level).trans hbelow))
    · have hodd : i % 2 = 1 := by omega
      have hommer : ommer = node merge g level (i - 1) := by
        rw [h.1 hodd]
        refine node_congr fun j _ hj => hfg j ?_
        rw [Nat.sub_add_cancel (by omega)] at hj
        omega
      have hhalf : (i + 1) / 2 = i / 2 + 1 := by omega
      have hnext : size + 1 = (i / 2 + 1) * 2 ^ (level + 1) := by
        have htwice : (i / 2 + 1) * 2 = i + 1 := by omega
        rw [hsize, Nat.pow_succ', ← Nat.mul_assoc, htwice]
      rw [if_neg heven, hommer, ← @node_succ_odd _ merge g level i hodd] at happend
      obtain ⟨rest', hrest, rfl⟩ := Option.map_eq_some_iff.mp happend
      refine ⟨fun hodd' => absurd hodd' (by omega), ?_⟩
      rw [hhalf]
      exact ih h.2 hnext hrest

theorem exists_append (acc : α) (h : i + 1 < 2 ^ ommers.length) :
    ∃ ommers', append merge ommers i acc = some ommers' ∧ ommers'.length = ommers.length := by
  induction ommers generalizing i acc with
  | nil =>
    rw [List.length_nil, Nat.pow_zero] at h
    omega
  | cons ommer rest ih =>
    rw [Frontier.append]
    by_cases heven : i % 2 = 0
    · rw [if_pos heven]
      exact ⟨_, rfl, rfl⟩
    rw [List.length_cons, Nat.pow_succ] at h
    obtain ⟨rest', hrest, hlen⟩ := ih (merge ommer acc) (i := i / 2) (by omega)
    rw [if_neg heven, hrest]
    exact ⟨_, rfl, congrArg (· + 1) hlen⟩

/-! ## Paths -/

theorem climb_siblings (n level i : ℕ) :
    climb merge (siblings merge f n level i) i (node merge f level i) = node merge f (level + n) (i / 2 ^ n) := by
  induction n generalizing level i with
  | zero => rw [siblings, climb, Nat.pow_zero, Nat.div_one, Nat.add_zero]
  | succ n ih =>
    have hup : (if i % 2 = 0 then merge (node merge f level i) (node merge f level (i ^^^ 1))
        else merge (node merge f level (i ^^^ 1)) (node merge f level i)) = node merge f (level + 1) (i / 2) := by
      by_cases heven : i % 2 = 0
      · have hxor : i ^^^ 1 = i + 1 := by
          rw [Nat.xor_one_of_even (Nat.even_iff.mpr heven)]
        rw [if_pos heven, node_succ_even heven, hxor]
      · have hodd : i % 2 = 1 := by omega
        have hxor : i ^^^ 1 = i - 1 := by
          rw [Nat.xor_one_of_odd (Nat.odd_iff.mpr hodd)]
        rw [if_neg heven, node_succ_odd hodd, hxor]
    rw [siblings, climb, hup, ih, Nat.div_div_eq_div_mul, ← Nat.pow_succ']
    congr 1
    omega

end Frontier
