import Mathlib.Algebra.BigOperators.Group.List.Basic
import Mathlib.Algebra.Order.BigOperators.Group.List
import Mathlib.Algebra.Order.Group.Nat
import Mathlib.Algebra.Ring.Nat
import Mathlib.Tactic.SplitIfs

/-!
# A rate window that restarts

A limiter that keeps two numbers: when its window started, and what it has admitted since. A charge that comes when the
window is over starts a new one on the spot. Two windows in a row may each be filled, the first at its end and the
second at its start, so what is admitted in `width` moments on end can come to twice the limit. It does not if a
window that is over is left alone for another `width` before the next one starts: that is `Calm`, and `Follows.le` is
the bound it gives.
-/

/-- Where the window started and what it has admitted. -/
structure RateWindow where
  start : ℕ
  spent : ℕ

namespace RateWindow
variable {width limit now time amount total : ℕ} {w w' w'' : RateWindow} {es flows : List (ℕ × ℕ)}

/-- Charge an amount at a time, within the limit. -/
def charge (width limit : ℕ) (w : RateWindow) (now amount : ℕ) : Option RateWindow :=
  let base : RateWindow := if width ≤ now - w.start then ⟨now, 0⟩ else w
  if base.spent + amount ≤ limit then some ⟨base.start, base.spent + amount⟩ else none

theorem charge_of_base {base : RateWindow} (hbase : base = if width ≤ now - w.start then ⟨now, 0⟩ else w)
    (hspent : base.spent + amount = total) (hle : total ≤ limit) :
    charge width limit w now amount = some ⟨base.start, total⟩ := by
  subst hspent hbase
  exact if_pos hle

/-- The window is unused, or open, or it has been over for almost as long as it was open. -/
def Calm (width : ℕ) (w : RateWindow) (now : ℕ) : Prop :=
  w.spent = 0 ∨ now < w.start + width ∨ w.start + 2 * width ≤ now + 1

instance : Decidable (Calm width w now) := inferInstanceAs (Decidable (_ ∨ _))

/-- What flows at the moments `t, …, t + width - 1`. -/
def within (width : ℕ) (es : List (ℕ × ℕ)) (t : ℕ) : ℕ :=
  (es.map fun e => if t ≤ e.1 ∧ e.1 < t + width then e.2 else 0).sum

@[simp] theorem within_nil (t : ℕ) : within width [] t = 0 := rfl

@[simp] theorem within_append (es es' : List (ℕ × ℕ)) (t : ℕ) :
    within width (es ++ es') t = within width es t + within width es' t := by
  simp [within]

@[simp] theorem within_singleton (e : ℕ × ℕ) (t : ℕ) :
    within width [e] t = if t ≤ e.1 ∧ e.1 < t + width then e.2 else 0 := by
  simp [within]

theorem within_le_sum (es : List (ℕ × ℕ)) (t : ℕ) : within width es t ≤ (es.map Prod.snd).sum := by
  refine List.sum_le_sum fun e _ => ?_
  split_ifs <;> omega

theorem within_eq_zero {t : ℕ} (h : ∀ e ∈ es, e.2 = 0 ∨ ¬(t ≤ e.1 ∧ e.1 < t + width)) : within width es t = 0 := by
  refine List.sum_eq_zero fun n hn => ?_
  obtain ⟨e, he, rfl⟩ := List.mem_map.mp hn
  obtain hzero | hout := h e he
  · rw [hzero, ite_self]
  · exact if_neg hout

theorem within_width_zero (es : List (ℕ × ℕ)) (t : ℕ) : within 0 es t = 0 :=
  within_eq_zero fun _ _ => .inr (by omega)

/-- What a charge does: it adds to the window or starts a new one. -/
theorem charge_eq_some (h : charge width limit w now amount = some w') :
    (now < w.start + width ∧ w' = ⟨w.start, w.spent + amount⟩ ∧ w.spent + amount ≤ limit) ∨
      (w.start + width ≤ now ∧ w' = ⟨now, amount⟩ ∧ amount ≤ limit) ∨ width = 0 := by
  unfold charge at h
  dsimp only at h
  by_cases hover : width ≤ now - w.start
  · simp only [if_pos hover, Nat.zero_add] at h
    split_ifs at h with hle
    cases h
    obtain hzero | hpos := Nat.eq_zero_or_pos width
    · exact .inr (.inr hzero)
    · exact .inr (.inl ⟨by omega, rfl, hle⟩)
  · simp only [if_neg hover] at h
    split_ifs at h with hle
    cases h
    exact .inl ⟨by omega, rfl, hle⟩

theorem Calm.charge (hpos : 0 < width) (h : charge width limit w now amount = some w') : Calm width w' now := by
  obtain ⟨hopen, rfl, -⟩ | ⟨-, rfl, -⟩ | rfl := charge_eq_some h
  · exact .inr (.inl hopen)
  · exact .inr (.inl (by dsimp only; omega))
  · exact absurd hpos (lt_irrefl 0)

/-- The window after the charges `es`. Those of earlier windows are out of reach of the open one; the others are paid
for by it. -/
structure Tracks (width limit : ℕ) (w : RateWindow) (now : ℕ) (es : List (ℕ × ℕ)) : Prop where
  bounded : ∀ t, within width es t ≤ limit
  split : ∃ old cur, es = old ++ cur ∧ (∀ e ∈ old, e.2 = 0 ∨ e.1 + width ≤ w.start ∧ w.start ≤ now) ∧
    (∀ e ∈ cur, e.1 < w.start + width) ∧ (cur.map Prod.snd).sum ≤ w.spent

theorem Tracks.nil : Tracks width limit w now [] :=
  ⟨fun _ => Nat.zero_le _, [], [], rfl, nofun, nofun, Nat.zero_le _⟩

theorem Tracks.later (h : Tracks width limit w now es) (hle : now ≤ time) : Tracks width limit w time es := by
  obtain ⟨hbounded, old, cur, rfl, hold, hcur, hsum⟩ := h
  refine ⟨hbounded, old, cur, rfl, fun e he => ?_, hcur, hsum⟩
  exact (hold e he).imp_right fun hfar => ⟨hfar.1, hfar.2.trans hle⟩

theorem Tracks.charge (hpos : 0 < width) (h : Tracks width limit w now es) (hle : now ≤ time)
    (hcalm : Calm width w time) (hc : charge width limit w time amount = some w') :
    Tracks width limit w' time (es ++ [(time, amount)]) := by
  obtain ⟨hbounded, old, cur, rfl, hold, hcur, hsum⟩ := h.later hle
  -- A run of moments that holds `time` is bounded by the new window, any other one as before.
  have hbound : (∀ t, t ≤ time → time < t + width → within width (old ++ cur) t + amount ≤ limit) →
      ∀ t, within width ((old ++ cur) ++ [(time, amount)]) t ≤ limit := by
    intro hnew t
    rw [within_append, within_singleton]
    split_ifs with ht
    · exact hnew t ht.1 ht.2
    · exact hbounded t
  obtain ⟨hopen, rfl, hlimit⟩ | ⟨hover, rfl, hlimit⟩ | hzero := charge_eq_some hc
  · refine ⟨hbound fun t ht1 ht2 => ?_, old, cur ++ [(time, amount)], List.append_assoc _ _ _, hold, ?_, ?_⟩
    · have hfar : within width old t = 0 := within_eq_zero fun e he => by
        have := hold e he
        omega
      have hnear : within width cur t ≤ (cur.map Prod.snd).sum := within_le_sum cur t
      rw [within_append]
      omega
    · rw [List.forall_mem_append, List.forall_mem_singleton]
      exact ⟨hcur, hopen⟩
    · simp only [List.map_append, List.map_singleton, List.sum_append, List.sum_singleton]
      omega
  · have hfar : ∀ e ∈ old ++ cur, e.2 = 0 ∨ e.1 + width ≤ time := by
      intro e he
      obtain he | he := List.mem_append.mp he
      · have := hold e he
        omega
      have hin := hcur e he
      have hpart := List.single_le_sum (l := cur.map Prod.snd) (fun _ _ => Nat.zero_le _) e.2
        (List.mem_map_of_mem he)
      obtain hunused | hopen | hrest := hcalm
      · exact .inl (by omega)
      · omega
      · exact .inr (by omega)
    refine ⟨hbound fun t ht1 ht2 => ?_, old ++ cur, [(time, amount)], rfl,
      fun e he => (hfar e he).imp_right fun hle => ⟨hle, le_rfl⟩, ?_, ?_⟩
    · have hnone : within width (old ++ cur) t = 0 := within_eq_zero fun e he => by
        have := hfar e he
        omega
      omega
    · rw [List.forall_mem_singleton]
      dsimp only
      omega
    · simp
  · omega

/-- Charges at one moment, and what they come to. -/
inductive Charged (width limit now : ℕ) (w : RateWindow) : ℕ → RateWindow → Prop
  | none : Charged width limit now w 0 w
  | more {a b : ℕ} {w₁ w₂ : RateWindow} (h : Charged width limit now w a w₁)
      (hc : charge width limit w₁ now b = some w₂) : Charged width limit now w (a + b) w₂

theorem Charged.one (h : charge width limit w now amount = some w') : Charged width limit now w amount w' := by
  simpa using Charged.more .none h

theorem Charged.trans {a b : ℕ} (h : Charged width limit now w a w') (h' : Charged width limit now w' b w'') :
    Charged width limit now w (a + b) w'' := by
  induction h' with
  | none => exact h
  | more _ hc ih =>
    rw [← Nat.add_assoc]
    exact .more ih hc

/-- The charges of one moment are no more than one charge for the run of charges before them. -/
theorem Tracks.charged (hpos : 0 < width) (h : Tracks width limit w now es) (hle : now ≤ time)
    (hcalm : Calm width w time) (hc : Charged width limit time w total w') :
    Calm width w' time ∧ ∃ es', Tracks width limit w' time (es ++ es') ∧
      ∀ t, within width es' t = if t ≤ time ∧ time < t + width then total else 0 := by
  induction hc with
  | none => exact ⟨hcalm, [], by simpa using h.later hle, fun t => by simp⟩
  | @more a b w1 w2 _ hc ih =>
    obtain ⟨hcalm1, es1, htracks, hsum⟩ := ih
    refine ⟨.charge hpos hc, es1 ++ [(time, b)], ?_, fun t => ?_⟩
    · rw [← List.append_assoc]
      exact htracks.charge hpos le_rfl hcalm1 hc
    · rw [within_append, hsum, within_singleton]
      dsimp only
      split_ifs <;> omega

/-- The window follows a flow: every part of it was charged. -/
def Follows (width limit : ℕ) (w : RateWindow) (now : ℕ) (flows : List (ℕ × ℕ)) : Prop :=
  ∃ es, Tracks width limit w now es ∧ ∀ t, within width flows t ≤ within width es t

theorem Follows.nil : Follows width limit w now [] := ⟨[], .nil, fun _ => le_rfl⟩

theorem Follows.later (h : Follows width limit w now flows) (hle : now ≤ time) : Follows width limit w time flows := by
  obtain ⟨es, htracks, hflows⟩ := h
  exact ⟨es, htracks.later hle, hflows⟩

theorem Follows.idle (h : Follows width limit w now flows) (hle : now ≤ time) :
    Follows width limit w time (flows ++ [(time, 0)]) := by
  obtain ⟨es, htracks, hflows⟩ := h.later hle
  exact ⟨es, htracks, fun t => by simpa using hflows t⟩

theorem Follows.charged (hpos : 0 < width) (h : Follows width limit w now flows) (hle : now ≤ time)
    (hcalm : Calm width w time) (hc : Charged width limit time w total w') (hamount : amount ≤ total) :
    Follows width limit w' time (flows ++ [(time, amount)]) := by
  obtain ⟨es, htracks, hflows⟩ := h
  obtain ⟨-, es', htracks', hsum⟩ := htracks.charged hpos hle hcalm hc
  refine ⟨es ++ es', htracks', fun t => ?_⟩
  rw [within_append, within_append, within_singleton, hsum]
  have := hflows t
  dsimp only
  split_ifs <;> omega

/-- No `width` moments on end see more than the limit. -/
theorem Follows.le (h : Follows width limit w now flows) (t : ℕ) : within width flows t ≤ limit := by
  obtain ⟨es, htracks, hflows⟩ := h
  exact (hflows t).trans (htracks.bounded t)

end RateWindow
