import Mathlib

/-!
# Checked steps

Steps on counts and arrays that abort a program where they make no sense. Each gives `none` then.
-/

namespace AmbisonicReverb

/-- The difference of two counts. There is none below zero. -/
def difference? (a b : ℕ) : Option ℕ := if b ≤ a then some (a - b) else none

/-- The remainder of a division. There is none by zero. -/
def remainder? (a b : ℕ) : Option ℕ := if b = 0 then none else some (a % b)

/-- The nearest count in a range. The range must not be upside down. -/
def clamp? (lo hi n : ℕ) : Option ℕ := if lo ≤ hi then some (max lo (min n hi)) else none

/-- Replaces an entry. There is none past the end. -/
def replace? {α : Type} (entries : Array α) (k : ℕ) (x : α) : Option (Array α) :=
  if h : k < entries.size then some (entries.set k x h) else none

theorem difference?_eq {a b : ℕ} (h : b ≤ a) : difference? a b = some (a - b) := if_pos h

theorem remainder?_eq {a b : ℕ} (h : b ≠ 0) : remainder? a b = some (a % b) := if_neg h

theorem clamp?_eq {lo hi : ℕ} (h : lo ≤ hi) (n : ℕ) : clamp? lo hi n = some (max lo (min n hi)) :=
  if_pos h

theorem replace?_eq {α : Type} {entries : Array α} {k : ℕ} (h : k < entries.size) (x : α) :
    replace? entries k x = some (entries.set k x h) := dif_pos h

end AmbisonicReverb
