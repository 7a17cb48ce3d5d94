import SovChain.State.Frame

/-!
# The keys of the leaves

The preimage of a slot is a tag byte with fixed-width fields, or a bare account id, which for a contract
entry ends at the separator byte 1. Nothing but the character set of ids keeps the two apart: between
well-formed slots preimages do not coincide (`preimage_inj`).
-/

namespace Sov
open Codec

theorem Reserved.name_injective : Function.Injective Reserved.name := by
  intro r r' h
  cases r <;> cases r' <;> first | rfl | exact absurd h (by decide)

namespace Slot
variable {a b : Slot}

/-- The ids in a slot. -/
def ids : Slot → List AccountId
  | account id => [id]
  | contract id _ => [id]
  | tokenBalance _ holder => [holder]
  | tokenWindow _ holder => [holder]
  | _ => []

def WellFormed (s : Slot) : Prop := ∀ id ∈ s.ids, id.WellFormed

/-- The tag byte of a preimage that has one. -/
def tag : Slot → Option UInt8
  | account _ => none
  | contract _ _ => none
  | reserved _ => some 2
  | token _ => some 3
  | tokenBalance _ _ => some 4
  | tokenPolicy _ => some 5
  | tokenWindow _ _ => some 6
  | intent _ => some 7

theorem tag_lt {t : UInt8} (h : a.tag = some t) : t.toNat < 45 := by
  cases a <;> cases h <;> decide

theorem head?_of_tag {t : UInt8} (h : a.tag = some t) : a.preimage.head? = some t := by
  cases a <;> cases h <;> rfl

/-- A preimage without a tag starts with an id. -/
theorem head?_of_untagged (hw : a.WellFormed) (h : a.tag = none) : ∃ x, a.preimage.head? = some x ∧ 45 ≤ x.toNat := by
  have hid : ∀ {id : AccountId} (rest : Bytes), id.WellFormed →
      ∃ x, (id.bytes ++ rest).head? = some x ∧ 45 ≤ x.toNat := by
    intro id rest hid
    have hlen := hid.length_bounds.1
    cases hbytes : id.bytes with
    | nil => simp [hbytes] at hlen
    | cons x xs => exact ⟨x, rfl, hid.le_of_mem (by simp [hbytes])⟩
  cases a with
  | account id => simpa [preimage] using hid [] (hw id (by simp [ids]))
  | contract id key => exact hid (1 :: key) (hw id (by simp [ids]))
  | _ => cases h

theorem tag_eq_of_preimage_eq (ha : a.WellFormed) (hb : b.WellFormed) (h : a.preimage = b.preimage) :
    a.tag = b.tag := by
  cases hta : a.tag with
  | none =>
    obtain ⟨x, hx, hle⟩ := head?_of_untagged ha hta
    rcases htb : b.tag with _ | t
    · rfl
    rw [h, head?_of_tag htb, Option.some.injEq] at hx
    have := tag_lt htb
    subst hx
    omega
  | some t =>
    have hat := head?_of_tag hta
    cases htb : b.tag with
    | none =>
      obtain ⟨x, hx, hle⟩ := head?_of_untagged hb htb
      rw [← h, hat, Option.some.injEq] at hx
      have := tag_lt hta
      subst hx
      omega
    | some t' => rwa [h, head?_of_tag htb, eq_comm] at hat

theorem sep_notMem {id : AccountId} (h : id.WellFormed) : (1 : UInt8) ∉ id.bytes := fun hmem =>
  h.ne_of_mem hmem (by decide) rfl

theorem preimage_inj (ha : a.WellFormed) (hb : b.WellFormed) (h : a.preimage = b.preimage) : a = b := by
  have htag := tag_eq_of_preimage_eq ha hb h
  have hpair : ∀ {asset asset' : Hash} {x x' : AccountId},
      asset.bytes ++ x.bytes = asset'.bytes ++ x'.bytes → asset = asset' ∧ x = x' := by
    intro asset asset' x x' heq
    obtain ⟨hasset, hx⟩ := List.append_inj heq (asset.length_eq.trans asset'.length_eq.symm)
    exact ⟨FixedBytes.bytes_injective hasset, AccountId.bytes_injective hx⟩
  cases a <;> cases b <;> try cases htag
  case account.account id id' => rw [AccountId.bytes_injective h]
  case account.contract id id' key =>
    have hmem : (1 : UInt8) ∈ id.bytes := by
      rw [show id.bytes = id'.bytes ++ 1 :: key from h]
      simp
    exact absurd hmem (sep_notMem (ha id (by simp [ids])))
  case contract.account id key id' =>
    have hmem : (1 : UInt8) ∈ id'.bytes := by
      rw [← show id.bytes ++ 1 :: key = id'.bytes from h]
      simp
    exact absurd hmem (sep_notMem (hb id' (by simp [ids])))
  case contract.contract id key id' key' =>
    obtain ⟨hid, rfl⟩ := append_sep_inj (sep_notMem (ha id (by simp [ids])))
      (sep_notMem (hb id' (by simp [ids]))) h
    rw [AccountId.bytes_injective hid]
  case reserved.reserved r r' =>
    rw [Reserved.name_injective (strBytes_injective (List.cons.inj h).2)]
  case token.token asset asset' => rw [FixedBytes.bytes_injective (List.cons.inj h).2]
  case tokenBalance.tokenBalance asset x asset' x' =>
    obtain ⟨rfl, rfl⟩ := hpair (List.cons.inj h).2
    rfl
  case tokenPolicy.tokenPolicy asset asset' => rw [FixedBytes.bytes_injective (List.cons.inj h).2]
  case tokenWindow.tokenWindow asset x asset' x' =>
    obtain ⟨rfl, rfl⟩ := hpair (List.cons.inj h).2
    rfl
  case intent.intent id id' => rw [FixedBytes.bytes_injective (List.cons.inj h).2]

end Slot
end Sov
