import Mathlib

/-!
# Counts of holders

Things that are held by several parties carry a count of them.  Each party has a
claim on one thing or on none.  A ledger gives every thing its count, and it
balances when the claims of the parties at hand move as the counts do.  Counts
are integers, so that a claim given up twice is seen as such.
-/

namespace Lib

variable {κ η : Type} [DecidableEq κ]

/-- `ledger` after `n` claims were added on what `account` names, if it names anything. -/
def credit (ledger : κ → Int) (account : Option κ) (n : Int) : κ → Int :=
  fun p ↦ ledger p + if account = some p then n else 0

/-- How many of `holders` have a claim on `p`. -/
def claims (claim : η → Option κ) (holders : List η) (p : κ) : Int :=
  holders.countP fun h ↦ claim h = some p

variable {claim : η → Option κ} {ledger : κ → Int} {account : Option κ} {n : Int} {h : η}
  {hs ks : List η} {p : κ}

@[simp] theorem credit_apply :
    credit ledger account n p = ledger p + if account = some p then n else 0 := rfl

@[simp] theorem credit_none : credit ledger none n = ledger := by
  funext p
  simp

@[simp] theorem claims_nil : claims claim [] p = 0 := rfl

@[simp] theorem claims_cons :
    claims claim (h :: hs) p = (if claim h = some p then 1 else 0) + claims claim hs p := by
  rw [claims, claims, List.countP_cons, add_comm]
  by_cases hp : claim h = some p <;> simp [hp]

@[simp] theorem claims_append :
    claims claim (hs ++ ks) p = claims claim hs p + claims claim ks p := by
  simp [claims]

theorem claims_perm (hk : hs.Perm ks) : claims claim hs p = claims claim ks p := by
  rw [claims, claims, hk.countP_eq]

theorem claims_nonneg : 0 ≤ claims claim hs p := Int.natCast_nonneg _

theorem claims_pos (hm : h ∈ hs) (hc : claim h = some p) : 0 < claims claim hs p := by
  rw [claims, Int.natCast_pos, List.countP_pos_iff]
  exact ⟨h, hm, by simpa using hc⟩

end Lib
