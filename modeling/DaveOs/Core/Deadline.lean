import DaveOs.Core.Types

/-!
# Deadlines

`After` of `lib/core/platform/platform.hpp`: deadline addition that saturates just below the sentinel
for "no deadline", which is never a real timestamp.
-/

namespace DaveOs

/-- Sentinel for no deadline or an indefinite wait. -/
def kForever : Nat := 2 ^ 64 - 1

def after (now delay : Nat) : Nat :=
  if kForever - now ≤ delay then kForever - 1 else now + delay

theorem after_eq_min (now delay : Nat) : after now delay = min (now + delay) (kForever - 1) := by
  have hk : kForever = 2 ^ 64 - 1 := rfl
  unfold after
  split <;> omega

theorem after_lt_kForever (now delay : Nat) : after now delay < kForever := by
  have hk : kForever = 2 ^ 64 - 1 := rfl
  rw [after_eq_min]
  omega

theorem le_after {now : Nat} (h : now < kForever) (delay : Nat) : now ≤ after now delay := by
  rw [after_eq_min]
  omega

/-- Saturation is only reached once: adding to a saturated sum changes nothing. -/
theorem after_min (now delay : Nat) :
    after (min now (kForever - 1)) delay = min (now + delay) (kForever - 1) := by
  rw [after_eq_min]
  omega

end DaveOs
