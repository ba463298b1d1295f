import HornSaturation.Term.Basic

/-!
# Equality of terms

Terms are compared structurally. The comparison of two terms and the comparison of two argument
lists are defined together; each is shown to hold exactly for equal sides, which decides equality of
terms.
-/

namespace HornSaturation.Term

mutual
/-- Structural equality of terms, as a test. -/
def beq : Term → Term → Bool
  | .bool a, .bool b => a == b
  | .int a, .int b => a == b
  | .var a, .var b => a == b
  | .op o as, .op p bs => o == p && beqList as bs
  | .app n r as, .app m s bs => n == m && r == s && beqList as bs
  | _, _ => false
/-- Structural equality of argument lists, as a test. -/
def beqList : List Term → List Term → Bool
  | [], [] => true
  | a :: as, b :: bs => beq a b && beqList as bs
  | _, _ => false
end

mutual
theorem eq_of_beq : ∀ {s t : Term}, beq s t = true → s = t
  | .bool _, .bool _, h => by simpa [beq] using h
  | .int _, .int _, h => by simpa [beq] using h
  | .var _, .var _, h => by simpa [beq] using h
  | .op _ as, .op _ bs, h => by
      simp only [beq, Bool.and_eq_true, beq_iff_eq] at h
      rw [h.1, eq_of_beqList h.2]
  | .app _ _ as, .app _ _ bs, h => by
      simp only [beq, Bool.and_eq_true, beq_iff_eq] at h
      rw [h.1.1, h.1.2, eq_of_beqList h.2]
  | .bool _, .int _, h | .bool _, .var _, h | .bool _, .op .., h | .bool _, .app .., h
  | .int _, .bool _, h | .int _, .var _, h | .int _, .op .., h | .int _, .app .., h
  | .var _, .bool _, h | .var _, .int _, h | .var _, .op .., h | .var _, .app .., h
  | .op .., .bool _, h | .op .., .int _, h | .op .., .var _, h | .op .., .app .., h
  | .app .., .bool _, h | .app .., .int _, h | .app .., .var _, h | .app .., .op .., h => by
      simp [beq] at h
theorem eq_of_beqList : ∀ {as bs : List Term}, beqList as bs = true → as = bs
  | [], [], _ => rfl
  | a :: as, b :: bs, h => by
      simp only [beqList, Bool.and_eq_true] at h
      rw [eq_of_beq h.1, eq_of_beqList h.2]
  | [], _ :: _, h | _ :: _, [], h => by simp [beqList] at h
end

mutual
theorem beq_refl : ∀ t : Term, beq t t = true
  | .bool _ | .int _ | .var _ => by simp [beq]
  | .op _ as | .app _ _ as => by simp [beq, beqList_refl as]
theorem beqList_refl : ∀ ts : List Term, beqList ts ts = true
  | [] => rfl
  | t :: ts => by simp [beqList, beq_refl t, beqList_refl ts]
end

instance : DecidableEq Term := fun s t =>
  if h : beq s t = true then .isTrue (eq_of_beq h)
  else .isFalse fun e => h (e ▸ beq_refl s)

end HornSaturation.Term
