import Mathlib.Data.List.Forall2

/-!
# Lists side by side

Facts about two lists whose entries are related place by place.
-/

namespace List.Forall₂

variable {α β : Type} {R S : α → β → Prop} {xs : List α} {ys : List β}

/-- A relation may be replaced by one that follows from it for entries of the lists. -/
theorem imp_mem (h : Forall₂ R xs ys) (hS : ∀ a ∈ xs, ∀ b ∈ ys, R a b → S a b) :
    Forall₂ S xs ys := by
  induction h with
  | nil => exact .nil
  | cons hab _ ih =>
    exact .cons (hS _ mem_cons_self _ mem_cons_self hab)
      (ih fun a ha b hb => hS a (mem_cons_of_mem _ ha) b (mem_cons_of_mem _ hb))

/-- Every entry of the first list has a partner in the second. -/
theorem exists_right (h : Forall₂ R xs ys) {a : α} (ha : a ∈ xs) : ∃ b ∈ ys, R a b := by
  induction h with
  | nil => cases ha
  | cons hab _ ih =>
    rcases mem_cons.mp ha with rfl | ha
    · exact ⟨_, mem_cons_self, hab⟩
    · obtain ⟨b, hb, hr⟩ := ih ha
      exact ⟨b, mem_cons_of_mem _ hb, hr⟩

/-- Two lists beside a common one are beside each other. -/
theorem of_common {γ : Type} {T : α → γ → Prop} {U : β → γ → Prop} {zs : List γ}
    (h : Forall₂ R xs ys) (h' : Forall₂ T xs zs)
    (hU : ∀ a b c, R a b → T a c → U b c) : Forall₂ U ys zs := by
  induction h generalizing zs with
  | nil =>
    cases h'
    exact .nil
  | cons hab _ ih =>
    cases h' with
    | cons hac h' => exact .cons (hU _ _ _ hab hac) (ih h')

/-- Entries side by side that agree on a third one have a common list beside them. -/
theorem exists_common {γ : Type} {T : α → γ → Prop} {U : β → γ → Prop} (h : Forall₂ R xs ys)
    (hR : ∀ a b, R a b → ∃ c, T a c ∧ U b c) : ∃ zs, Forall₂ T xs zs ∧ Forall₂ U ys zs := by
  induction h with
  | nil => exact ⟨[], .nil, .nil⟩
  | cons hab _ ih =>
    obtain ⟨c, hac, hbc⟩ := hR _ _ hab
    obtain ⟨zs, hxs, hys⟩ := ih
    exact ⟨c :: zs, .cons hac hxs, .cons hbc hys⟩

/-- Entries side by side have their properties together. -/
theorem forall_mem_iff {P : α → Prop} {Q : β → Prop} (h : Forall₂ (fun a b => P a ↔ Q b) xs ys) :
    (∀ a ∈ xs, P a) ↔ ∀ b ∈ ys, Q b := by
  induction h with
  | nil => simp
  | cons hab _ ih => simp [hab, ih]

end List.Forall₂

theorem List.exists_mem_flatMap {α β : Type} {f : α → List β} {P : β → Prop} {xs : List α} :
    (∃ b ∈ xs.flatMap f, P b) ↔ ∃ a ∈ xs, ∃ b ∈ f a, P b := by
  simp only [mem_flatMap]
  constructor
  · rintro ⟨b, ⟨a, ha, hb⟩, hP⟩
    exact ⟨a, ha, b, hb, hP⟩
  · rintro ⟨a, ha, b, hb, hP⟩
    exact ⟨b, ⟨a, ha, hb⟩, hP⟩

/-- A list without duplicates has none. -/
theorem List.nodup_eraseDups {α : Type} [BEq α] [LawfulBEq α] : ∀ xs : List α, xs.eraseDups.Nodup
  | [] => .nil
  | x :: xs => by
    rw [eraseDups_cons, nodup_cons]
    exact ⟨by simp [mem_eraseDups], nodup_eraseDups _⟩
termination_by xs => xs.length
decreasing_by exact Nat.lt_succ_of_le (length_filter_le _ xs)

/-- A map that keeps the entries of a list apart keeps the order of first occurrences. -/
theorem List.eraseDups_map {α β : Type} [BEq α] [LawfulBEq α] [BEq β] [LawfulBEq β] {g : α → β} :
    ∀ {xs : List α}, (∀ x ∈ xs, ∀ y ∈ xs, g x = g y → x = y) →
      (xs.map g).eraseDups = xs.eraseDups.map g
  | [], _ => rfl
  | x :: xs, h => by
    have hfilter : (xs.map g).filter (fun b => !b == g x) =
        (xs.filter fun a => !a == x).map g := by
      rw [filter_map]
      refine congrArg (map g) (filter_congr fun a ha => ?_)
      have heq : g a = g x ↔ a = x :=
        ⟨h a (mem_cons_of_mem x ha) x mem_cons_self, congrArg g⟩
      rw [Bool.eq_iff_iff]
      simp [heq]
    rw [map_cons, eraseDups_cons, eraseDups_cons, map_cons, hfilter, eraseDups_map fun a ha b hb =>
      h a (mem_cons_of_mem x (mem_of_mem_filter ha)) b (mem_cons_of_mem x (mem_of_mem_filter hb))]
termination_by xs => xs.length
decreasing_by exact Nat.lt_succ_of_le (length_filter_le _ xs)
