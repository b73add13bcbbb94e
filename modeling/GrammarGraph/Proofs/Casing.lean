import GrammarGraph.Text.Case
import Mathlib.Data.List.Basic

/-!
# Upper case

The upper-case form of a text is in upper case (`Text.upper_upper`).  The code points
that the tables change and those that they give are two sets, kept as the bits of two
numbers, and have none in common.
-/

namespace GrammarGraph.Text

variable {runs : List (Nat × Nat × Nat × Nat)} {run : Nat × Nat × Nat × Nat} {n : Nat}

/-! ## Code points as bits -/

/-- A bit at each multiple of the step, as many as given. -/
def marks : Nat → Nat → Nat
  | 0, _ => 0
  | count + 1, step => 1 ||| marks count step <<< step

theorem testBit_marks (step : Nat) :
    ∀ {count i : Nat}, i < count → (marks count step).testBit (step * i) = true
  | count + 1, 0, _ => by rw [Nat.mul_zero, marks, Nat.testBit_or]; rfl
  | count + 1, i + 1, hi => by
    have hrest := testBit_marks step (Nat.lt_of_succ_lt_succ hi)
    rw [marks, Nat.testBit_or, Nat.testBit_shiftLeft, Nat.mul_succ, Nat.add_sub_cancel, hrest]
    simp

/-- The code points that runs cover, one bit each. -/
def bits : List (Nat × Nat × Nat × Nat) → Nat
  | [] => 0
  | (first, last, step, _) :: runs => marks ((last - first) / step + 1) step <<< first ||| bits runs

theorem testBit_bits (hrun : run ∈ runs) (h : covers n run = true) :
    (bits runs).testBit n = true := by
  induction runs with
  | nil => exact absurd hrun List.not_mem_nil
  | cons other runs ih =>
    rw [bits, Nat.testBit_or, Bool.or_eq_true]
    rcases List.mem_cons.mp hrun with rfl | hrun
    · left
      obtain ⟨first, last, step, image⟩ := run
      simp only [covers, Bool.and_eq_true, decide_eq_true_eq, beq_iff_eq] at h
      obtain ⟨⟨hfirst, hlast⟩, hstep⟩ := h
      have hcount : (n - first) / step < (last - first) / step + 1 :=
        Nat.lt_succ_of_le (Nat.div_le_div_right (Nat.sub_le_sub_right hlast first))
      have hmark := testBit_marks step hcount
      rw [Nat.mul_div_cancel' (Nat.dvd_of_mod_eq_zero hstep)] at hmark
      rw [Nat.testBit_shiftLeft, hmark]
      exact (Bool.and_true _).trans (decide_eq_true hfirst)
    · exact .inr (ih hrun)

/-- The run of a single code point. -/
def point (n : Nat) : Nat × Nat × Nat × Nat := (n, n, 1, n)

theorem covers_point (n : Nat) : covers n (point n) = true := by simp [covers, point]

/-- Where a run leads to. -/
def imageOf : Nat × Nat × Nat × Nat → Nat × Nat × Nat × Nat
  | (first, last, step, image) => (image, image + (last - first), step, image)

theorem covers_imageOf {first last step image : Nat}
    (h : covers n (first, last, step, image) = true) :
    covers (image + (n - first)) (imageOf (first, last, step, image)) = true := by
  simp only [covers, Bool.and_eq_true, decide_eq_true_eq, beq_iff_eq] at h
  obtain ⟨⟨-, hlast⟩, hstep⟩ := h
  have hle : image + (n - first) ≤ image + (last - first) :=
    Nat.add_le_add_left (Nat.sub_le_sub_right hlast first) image
  simp [covers, imageOf, hle, hstep]

/-! ## The tables -/

/-- What has another upper-case form. -/
def changing : List (Nat × Nat × Nat × Nat) := upperRuns ++ upperExpansions.map fun e => point e.1

/-- What other upper-case forms consist of. -/
def given : List (Nat × Nat × Nat × Nat) :=
  upperRuns.map imageOf ++ upperExpansions.flatMap fun e => e.2.map point

/-- Nothing that the tables give do they change. -/
theorem bits_changing_given : bits changing &&& bits given = 0 := by decide +kernel

theorem upperChar_ofNat (h : (bits given).testBit n = true) :
    upperChar (Char.ofNat n) = [Char.ofNat n] := by
  by_cases hvalid : n.isValidChar
  · have hsame : (Char.ofNat n).toNat = n := by
      rw [Char.toNat, Char.ofNat, dif_pos hvalid]
      rfl
    have hunchanged : ∀ run ∈ changing, covers n run = false := by
      intro run hrun
      refine Bool.eq_false_iff.mpr fun hcovers => ?_
      have hboth := congrArg (Nat.testBit · n) bits_changing_given
      simp only [Nat.testBit_and, testBit_bits hrun hcovers, h, Nat.zero_testBit] at hboth
      exact absurd hboth (by decide)
    have hruns : image? upperRuns n = none := by
      rw [image?, Option.map_eq_none_iff, List.find?_eq_none]
      exact fun run hrun => Bool.eq_false_iff.mp (hunchanged run (List.mem_append_left _ hrun))
    have hexpansions : upperExpansions.find? (·.1 == n) = none := by
      rw [List.find?_eq_none]
      intro e he heq
      obtain rfl := eq_of_beq heq
      have hpoint := hunchanged (point e.1) (List.mem_append_right _ (List.mem_map_of_mem he))
      exact absurd (covers_point e.1) (by rw [hpoint]; exact nofun)
    rw [upperChar, hsame, hruns]
    simp only [hexpansions]
  · rw [Char.ofNat, dif_neg hvalid]
    decide +kernel

/-- The characters of an upper-case form are their own. -/
theorem upperChar_of_mem {c d : Char} (h : d ∈ upperChar c) : upperChar d = [d] := by
  unfold upperChar at h
  split at h
  · next n himage =>
    obtain rfl := List.mem_singleton.mp h
    obtain ⟨⟨first, last, step, image⟩, hfind, rfl⟩ := Option.map_eq_some_iff.mp himage
    exact upperChar_ofNat
      (testBit_bits (List.mem_append_left _ (List.mem_map_of_mem (List.mem_of_find?_eq_some hfind)))
      (covers_imageOf (List.find?_some hfind)))
  · next himage =>
    split at h
    · next form hfind =>
      obtain ⟨n, hn, rfl⟩ := List.mem_map.mp h
      exact upperChar_ofNat (testBit_bits (List.mem_append_right _ (List.mem_flatMap.mpr ⟨_,
          List.mem_of_find?_eq_some hfind, List.mem_map_of_mem hn⟩)) (covers_point n))
    · next hnone =>
      obtain rfl := List.mem_singleton.mp h
      rw [upperChar, himage, hnone]

theorem upper_upper (s : String) : upper (upper s) = upper s := by
  refine String.toList_inj.mp ?_
  rw [toList_upper, toList_upper, List.flatMap_assoc]
  congr 1
  funext c
  have hself : ∀ form : List Char, (∀ d ∈ form, upperChar d = [d]) →
      form.flatMap upperChar = form := by
    intro form hform
    rw [List.flatMap_congr hform, List.flatMap_singleton']
  exact hself _ fun d => upperChar_of_mem

end GrammarGraph.Text
