import SovChain.Chain.Setup
import Mathlib.Data.List.Induction

/-!
# The receipts of the active chain

Two maps of a chain lead from a height to the receipts of its block and from a transaction to its height. Here they are
one index, with the index of a branch as what it is to be (`ReceiptIndex.ofBranch`): a block adds its receipts, taking
it off drops them again (`drop_add`), and every transaction is found where its receipt is (`Finds.add`).
-/

namespace Sov

/-- The receipts of the active chain by height, and the heights of its transactions. -/
@[ext] structure ReceiptIndex where
  active : OrdMap ℕ (List Receipt)
  heights : OrdMap Hash ℕ

namespace ReceiptIndex

def empty : ReceiptIndex := ⟨.empty, .empty⟩

/-- Index the receipts of a block. -/
def add (m : ReceiptIndex) (height : ℕ) (receipts : List Receipt) : ReceiptIndex :=
  if receipts.isEmpty then m
  else ⟨m.active.insert height receipts, receipts.foldl (fun h r => h.insert r.txId height) m.heights⟩

/-- Forget the receipts of a block. -/
def drop (m : ReceiptIndex) (height : ℕ) : ReceiptIndex :=
  match m.active.get? height with
  | none => m
  | some receipts => ⟨m.active.erase height, receipts.foldl (fun h r => h.erase r.txId) m.heights⟩

/-- The index of a branch. -/
def ofBranch (branch : List (ℕ × List Receipt)) : ReceiptIndex := branch.foldl (fun m p => m.add p.1 p.2) empty

variable {m : ReceiptIndex} {height : ℕ} {receipts : List Receipt} {branch : List (ℕ × List Receipt)}

theorem ofBranch_snoc : ofBranch (branch ++ [(height, receipts)]) = (ofBranch branch).add height receipts := by
  simp [ofBranch]

theorem get?_foldl_insert (heights : OrdMap Hash ℕ) (id : Hash) :
    (receipts.foldl (fun h r => h.insert r.txId height) heights).get? id =
      if id ∈ receipts.map Receipt.txId then some height else heights.get? id :=
  (OrdMap.get?_foldl_set Receipt.txId (some height) receipts heights id).trans (by congr)

theorem drop_of_none (h : m.active.get? height = none) : m.drop height = m := by
  unfold drop
  rw [h]

/-- Forgetting the receipts of a block that was not indexed before. -/
theorem drop_add (hheight : m.active.get? height = none)
    (hids : ∀ r ∈ receipts, m.heights.get? r.txId = none) : (m.add height receipts).drop height = m := by
  unfold add
  split_ifs with hempty
  · exact drop_of_none hheight
  unfold drop
  dsimp only
  rw [OrdMap.get?_insert_self]
  ext1
  · exact OrdMap.erase_insert hheight receipts
  refine OrdMap.ext_get? fun id => ?_
  refine (OrdMap.get?_foldl_set Receipt.txId none ..).trans ?_
  rw [get?_foldl_insert]
  split_ifs with hid
  · obtain ⟨r, hr, rfl⟩ := List.mem_map.mp hid
    exact (hids r hr).symm
  · rfl

theorem active_ofBranch (h : ∀ p ∈ branch, p.1 ≠ height) : (ofBranch branch).active.get? height = none := by
  induction branch using List.reverseRecOn with
  | nil => rfl
  | append_singleton branch p ih =>
    have hrest := ih fun q hq => h q (List.mem_append_left _ hq)
    rw [ofBranch_snoc, add]
    split_ifs
    · exact hrest
    · rw [OrdMap.get?_insert, if_neg (h p (by simp))]
      exact hrest

theorem heights_ofBranch {id : Hash} (h : ∀ p ∈ branch, ∀ r ∈ p.2, r.txId ≠ id) :
    (ofBranch branch).heights.get? id = none := by
  induction branch using List.reverseRecOn with
  | nil => rfl
  | append_singleton branch p ih =>
    have hrest := ih fun q hq => h q (List.mem_append_left _ hq)
    rw [ofBranch_snoc, add]
    split_ifs
    · exact hrest
    dsimp only
    rw [get?_foldl_insert, if_neg]
    · exact hrest
    · intro hid
      obtain ⟨r, hr, heq⟩ := List.mem_map.mp hid
      exact h p (by simp) r hr heq

theorem getD_active_add (hheight : m.active.get? height = none) (h : ℕ) :
    ((m.add height receipts).active.get? h).getD [] = if height = h then receipts else (m.active.get? h).getD [] := by
  unfold add
  split_ifs with hempty hh hh
  · rw [← hh, hheight, List.isEmpty_iff.mp hempty]
    rfl
  · rfl
  · rw [hh, OrdMap.get?_insert_self]
    rfl
  · rw [OrdMap.get?_insert, if_neg hh]

/-- A transaction is found at a height exactly if it has a receipt there. -/
def Finds (m : ReceiptIndex) : Prop :=
  ∀ id h, m.heights.get? id = some h ↔ id ∈ ((m.active.get? h).getD []).map Receipt.txId

theorem Finds.add (hm : m.Finds) (hheight : m.active.get? height = none)
    (hids : ∀ r ∈ receipts, m.heights.get? r.txId = none) : (m.add height receipts).Finds := by
  unfold ReceiptIndex.add
  split_ifs with hempty
  · exact hm
  intro id h
  dsimp only
  rw [get?_foldl_insert, OrdMap.get?_insert]
  by_cases hh : height = h
  · subst hh
    have hold : m.heights.get? id ≠ some height := by
      rw [Ne, hm, hheight]
      simp
    by_cases hid : id ∈ receipts.map Receipt.txId
    · simp [hid]
    · simp only [hid, if_false, if_true, Option.getD_some, hold]
  · rw [if_neg hh, ← hm]
    by_cases hid : id ∈ receipts.map Receipt.txId
    · obtain ⟨r, hr, rfl⟩ := List.mem_map.mp hid
      simp [hid, hh, hids r hr]
    · rw [if_neg hid]

end ReceiptIndex

namespace Blockchain
variable {bc : Blockchain}

def receiptIndex (bc : Blockchain) : ReceiptIndex := ⟨bc.activeReceipts, bc.txHeight⟩

/-- The chain with other receipts. -/
def withReceipts (bc : Blockchain) (m : ReceiptIndex) : Blockchain :=
  { bc with activeReceipts := m.active, txHeight := m.heights }

theorem indexBlockReceipts_eq (height : ℕ) (receipts : List Receipt) :
    bc.indexBlockReceipts height receipts = bc.withReceipts (bc.receiptIndex.add height receipts) := by
  unfold indexBlockReceipts ReceiptIndex.add
  split_ifs <;> rfl

theorem forgetReceipts_eq (height : ℕ) : bc.forgetReceipts height = bc.withReceipts (bc.receiptIndex.drop height) := by
  unfold forgetReceipts ReceiptIndex.drop receiptIndex
  dsimp only
  cases bc.activeReceipts.get? height <;> rfl

theorem rebuildReceiptIndex_eq (branch : List (ℕ × List Receipt)) :
    bc.rebuildReceiptIndex branch = bc.withReceipts (.ofBranch branch) := by
  induction branch using List.reverseRecOn with
  | nil => rfl
  | append_singleton branch p ih =>
    have hlast : bc.rebuildReceiptIndex (branch ++ [p]) =
        (bc.rebuildReceiptIndex branch).indexBlockReceipts p.1 p.2 := by
      simp [rebuildReceiptIndex]
    rw [hlast, ih, indexBlockReceipts_eq, ReceiptIndex.ofBranch_snoc]
    rfl

end Blockchain
end Sov
