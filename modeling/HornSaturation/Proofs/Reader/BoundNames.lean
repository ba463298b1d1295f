import HornSaturation.Proofs.Reader.Agreement

/-!
# Renaming bound names

The name of a binder is renamed together with its free occurrences in the body. A `let` whose name
no quantifier in its body declares again stands for the same term under any new name. A quantifier
leaves its variable behind, so its name may play no role in the rest of the term: then the term
stays the same up to a permutation of variables.
-/

namespace HornSaturation

/-- The permutation of the variables that exchanges two names and keeps sorts. -/
def Var.swapNames (x z : String) : Equiv.Perm Var where
  toFun v := ⟨Equiv.swap x z v.name, v.sort⟩
  invFun v := ⟨Equiv.swap x z v.name, v.sort⟩
  left_inv v := by simp
  right_inv v := by simp

theorem Var.swapNames_of_ne {x z : String} {v : Var} (hx : v.name ≠ x) (hz : v.name ≠ z) :
    Var.swapNames x z v = v := by
  change Var.mk _ v.sort = v
  rw [Equiv.swap_apply_of_ne_of_ne hx hz]

/-- What a permutation leaves alone it makes of nothing else. -/
theorem eq_apply_iff_of_fixed {α : Type} {π : Equiv.Perm α} {a b : α} (h : π a = a) :
    a = π b ↔ a = b :=
  ⟨fun e => π.injective (h.trans e), fun e => e ▸ h.symm⟩

namespace Reader.Form

variable {p : Problem} {x z : String}

section FreeOccurrences

/-- The first name is called the second one where `x` is renamed to `z`. -/
def Called (x z y y' : String) : Prop := y ≠ z ∧ y' = Equiv.swap x z y

theorem called_of_ne {y : String} (hx : y ≠ x) (hz : y ≠ z) : Called x z y y :=
  ⟨hz, (Equiv.swap_apply_of_ne_of_ne hx hz).symm⟩

theorem called_renamed (h : x ≠ z) : Called x z x z := ⟨h, (Equiv.swap_apply_left x z).symm⟩

theorem Called.cases {y y' : String} (h : Called x z y y') :
    y = x ∧ y' = z ∨ y = y' ∧ y ≠ x ∧ y ≠ z := by
  obtain ⟨hz, rfl⟩ := h
  by_cases hx : y = x
  · exact .inl ⟨hx, hx ▸ Equiv.swap_apply_left _ z⟩
  · exact .inr ⟨(Equiv.swap_apply_of_ne_of_ne hx hz).symm, hx, hz⟩

/-- A name may be any other one for a binder that mentions neither of the two. -/
theorem Called.iff_of_notMem {y y' : String} {names : List String} (h : Called x z y y')
    (hx : x ∉ names) (hz : z ∉ names) : ∀ b ∈ names, b = y ↔ b = y' := by
  intro b hb
  rcases h.cases with ⟨rfl, rfl⟩ | ⟨rfl, -, -⟩
  · exact iff_of_false (fun e => hx (e ▸ hb)) fun e => hz (e ▸ hb)
  · rfl

/-- Renaming a name that stands for a variable renames the variable. -/
private theorem follows_renameFree_name (hxz : x ≠ z)
    (hx : ∀ sort, nameTerm p sort x = .var ⟨x, sort.getD .int⟩)
    (hz : ∀ sort, nameTerm p sort z = .var ⟨z, sort.getD .int⟩) {y : String} (hyz : y ≠ z) :
    Follows p (Called x z) (Var.swapNames x z) (.name y) ((Form.name y).renameFree x z) := by
  intro σ σ' t τ hσ ht
  obtain ⟨rfl, rfl⟩ := Prod.mk.inj (Option.some.inj ht)
  refine ⟨σ', ?_, hσ⟩
  rw [renameFree]
  by_cases hyx : y = x
  · subst hyx
    have hsort := hσ _ _ (called_renamed hxz)
    have hvar : Var.swapNames y z ⟨y, σ.sortOf y⟩ = ⟨z, σ'.sortOf z⟩ :=
      Var.mk.injEq .. ▸ ⟨Equiv.swap_apply_left y z, hsort⟩
    rw [if_pos rfl, resolve, hz, hx, Term.rename_var]
    exact congrArg (fun v => some (Term.var v, σ')) hvar.symm
  · have hsort := hσ _ _ (called_of_ne hyx hyz)
    rw [if_neg hyx, resolve, nameTerm_congr hsort, Term.rename_eq_self]
    intro v hv
    obtain rfl := occurrences_nameTerm hv
    exact Var.swapNames_of_ne hyx hyz

/-- A `let` that gives the renamed name another meaning in its body keeps its body. -/
private theorem follows_letIn_shadowing {bindings bindings' : List (String × Form)} {body : Form}
    (hlist : bindings'.map Prod.fst = bindings.map Prod.fst)
    (hvalues : List.Forall₂ (Follows p (Called x z) (Var.swapNames x z)) (bindings.map Prod.snd)
      (bindings'.map Prod.snd))
    (hmem : x ∈ bindings.map Prod.fst) (hcount : (bindings.map Prod.fst).count x ≤ 1)
    (hbody : x ∉ body.redeclared) (hznames : z ∉ bindings.map Prod.fst) (hzbody : z ∉ body.names) :
    Follows p (Called x z) (Var.swapNames x z) (.letIn bindings body) (.letIn bindings' body) := by
  refine .letIn_values (fun _ => rfl) hlist hvalues ?_ (fun y y' hy => ?_) fun v hv => ?_
  · refine follows_self (fun y y' hy => hy.1) fun y hy => ⟨rfl, ?_⟩
    by_cases hy' : y ∈ bindings.map Prod.fst
    · exact .inl hy'
    · exact .inr (called_of_ne (fun e => hy' (e ▸ hmem)) fun e => hzbody (e ▸ names_of_isFree hy))
  · rcases hy.cases with ⟨rfl, rfl⟩ | ⟨heq, -, -⟩
    · refine .inr ⟨⟨hcount, hbody⟩, ?_, fun h => hzbody (names_of_redeclared h)⟩
      rw [hlist, List.count_eq_zero.mpr hznames]
      exact Nat.zero_le 1
    · exact .inl heq
  · refine Var.swapNames_of_ne (fun e => ?_) fun e => hzbody (e ▸ ?_)
    · rcases hv with h | ⟨h, -⟩
      · exact hbody (e ▸ h)
      · exact h (e ▸ hmem)
    · exact hv.elim names_of_redeclared fun h => names_of_isFree h.2

/-- Renaming the free occurrences of a name that no part declares again renames the variable. -/
theorem follows_renameFree (hxz : x ≠ z) (hx : ∀ sort, nameTerm p sort x = .var ⟨x, sort.getD .int⟩)
    (hz : ∀ sort, nameTerm p sort z = .var ⟨z, sort.getD .int⟩) {f : Form}
    (hredeclared : x ∉ f.redeclared) (hfresh : z ∉ f.names) :
    Follows p (Called x z) (Var.swapNames x z) f (f.renameFree x z) := by
  induction f using structural with
  | numeral n =>
    intro σ σ' t τ hσ ht
    obtain ⟨rfl, rfl⟩ := Prod.mk.inj (Option.some.inj ht)
    exact ⟨σ', rfl, hσ⟩
  | name y =>
    exact follows_renameFree_name hxz hx hz fun e => hfresh (mem_names_name.mpr e.symm)
  | apply f args ih =>
    rw [mem_redeclared_apply] at hredeclared
    rw [mem_names_apply] at hfresh
    rw [renameFree_apply]
    refine .apply f (List.forall₂_map_right_iff.mpr (List.forall₂_same.mpr fun g hg => ?_))
    exact ih g hg (fun h => hredeclared ⟨g, hg, h⟩) fun h => hfresh (.inr ⟨g, hg, h⟩)
  | letIn bindings body ihv ihb =>
    rw [mem_redeclared_letIn, not_or, not_or] at hredeclared
    rw [mem_names_letIn, not_or, not_or] at hfresh
    obtain ⟨hcount, hvalues, hbody⟩ := hredeclared
    obtain ⟨hznames, hzvalues, hzbody⟩ := hfresh
    have hlist : (bindings.map fun b => (b.1, b.2.renameFree x z)).map Prod.fst =
        bindings.map Prod.fst := by
      rw [List.map_map]
      rfl
    have hfollow : List.Forall₂ (Follows p (Called x z) (Var.swapNames x z))
        (bindings.map Prod.snd)
        ((bindings.map fun b => (b.1, b.2.renameFree x z)).map Prod.snd) := by
      rw [List.map_map, List.forall₂_map_left_iff, List.forall₂_map_right_iff, List.forall₂_same]
      exact fun b hb => ihv b hb (fun h => hvalues ⟨b, hb, h⟩) fun h => hzvalues ⟨b, hb, h⟩
    rw [renameFree_letIn]
    by_cases hmem : x ∈ bindings.map Prod.fst
    · rw [if_pos hmem]
      exact follows_letIn_shadowing hlist hfollow hmem (by omega) hbody hznames hzbody
    · rw [if_neg hmem]
      refine .letIn_body (fun _ => rfl) hlist hfollow (ihb hbody hzbody)
        (fun y y' hy => hy.iff_of_notMem hmem hznames) fun v hv k hk => ?_
      have hfixed : Var.swapNames x z k = k :=
        Var.swapNames_of_ne (fun e => hmem (e ▸ hk)) fun e => hznames (e ▸ hk)
      exact eq_apply_iff_of_fixed hfixed
  | quantified bound body ih =>
    rw [mem_redeclared_quantified, not_or] at hredeclared
    rw [mem_names_quantified, not_or] at hfresh
    rw [renameFree, if_neg hredeclared.1]
    refine .quantified_body (ih hredeclared.2 hfresh.2) (fun y y' hy => ?_) fun _ _ hy => hy
    exact ⟨hy.iff_of_notMem hredeclared.1 hfresh.1, fun _ => hy⟩

end FreeOccurrences

section Places

/-- A name plays no role for a form: it is neither free in it nor declared again by it. -/
def Ignores (f : Form) (x : String) : Prop := ¬ f.isFree x = true ∧ x ∉ f.redeclared

/-- One part of a form is changed. The names of a list play no role for what is beside that part,
and no `let` gives them a meaning in it. -/
inductive Changes (R : Form → Form → Prop) (apart : List String) : Form → Form → Prop
  | here {f f' : Form} (h : R f f') : Changes R apart f f'
  | argument {g g' : Form} (f : String) (before after : List Form)
      (hothers : ∀ a ∈ before ++ after, ∀ x ∈ apart, a.Ignores x) (h : Changes R apart g g') :
      Changes R apart (.apply f (before ++ g :: after)) (.apply f (before ++ g' :: after))
  | value {g g' : Form} (y : String) (before after : List (String × Form)) (body : Form)
      (hothers : ∀ b ∈ before ++ after, ∀ x ∈ apart, b.2.Ignores x)
      (hbody : ∀ x ∈ apart, x ∉ body.redeclared ∧
        (body.isFree x = true → x ∈ (before ++ (y, g) :: after).map Prod.fst))
      (h : Changes R apart g g') :
      Changes R apart (.letIn (before ++ (y, g) :: after) body)
        (.letIn (before ++ (y, g') :: after) body)
  | body {g g' : Form} (bindings : List (String × Form))
      (hvalues : ∀ b ∈ bindings, ∀ x ∈ apart, x ≠ b.1 ∧ b.2.Ignores x)
      (h : Changes R apart g g') :
      Changes R apart (.letIn bindings g) (.letIn bindings g')
  | quantified {g g' : Form} (bound : List (String × BaseSort)) (h : Changes R apart g g') :
      Changes R apart (.quantified bound g) (.quantified bound g')

/-- A permutation of variables keeps sorts, and moves variables with the names of a list only. -/
structure Moves (names : List String) (π : Equiv.Perm Var) : Prop where
  sort : ∀ v, (π v).sort = v.sort
  fixed : ∀ v : Var, v.name ∉ names → π v = v

/-- Names are related to themselves, apart from those of a list. -/
def Unmoved (names : List String) (y y' : String) : Prop := y = y' ∧ y ∉ names

variable {names : List String} {π : Equiv.Perm Var} {f f' : Form}

/-- A form that mentions no name that is moved follows itself. -/
theorem Ignores.follows (hπ : Moves names π) (h : ∀ x ∈ names, f.Ignores x) :
    Follows p (Unmoved names) π f f := by
  refine follows_apart (fun y y' hy => hy.1) (fun y hy => ⟨rfl, fun hmem => (h y hmem).1 hy⟩)
    fun v hv => hπ.fixed v fun hmem => ?_
  exact hv.elim (h _ hmem).2 (h _ hmem).1

theorem ignores_of_notMem (h : z ∉ f.names) : f.Ignores z :=
  ⟨fun hfree => h (names_of_isFree hfree), fun hmem => h (names_of_redeclared hmem)⟩

theorem follows_beside {g g' : Form} {before after : List Form}
    (hg : Follows p (Unmoved names) π g g')
    (hothers : ∀ a ∈ before ++ after, Follows p (Unmoved names) π a a) :
    List.Forall₂ (Follows p (Unmoved names) π) (before ++ g :: after) (before ++ g' :: after) := by
  obtain ⟨hbefore, hafter⟩ := List.forall_mem_append.mp hothers
  exact List.rel_append (List.forall₂_same.mpr hbefore) (.cons hg (List.forall₂_same.mpr hafter))

/-- A `let` keeps its body if that does not declare names again that are moved, and uses only those
of them that the `let` lists. -/
theorem Follows.letIn_unmoved {bindings bindings' : List (String × Form)} {body : Form}
    (hπ : Moves names π) (hlist : bindings'.map Prod.fst = bindings.map Prod.fst)
    (hvalues : List.Forall₂ (Follows p (Unmoved names) π) (bindings.map Prod.snd)
      (bindings'.map Prod.snd))
    (hbody : ∀ x ∈ names, x ∉ body.redeclared ∧
      (body.isFree x = true → x ∈ bindings.map Prod.fst)) :
    Follows p (Unmoved names) π (.letIn bindings body) (.letIn bindings' body) := by
  refine .letIn_values hπ.sort hlist hvalues ?_ (fun y y' hy => .inl hy.1)
    fun v hv => hπ.fixed v fun hmoved => ?_
  · refine follows_self (fun y y' hy => hy.1) fun x hx => ⟨rfl, ?_⟩
    by_cases hmem : x ∈ bindings.map Prod.fst
    · exact .inl hmem
    · exact .inr ⟨rfl, fun hmoved => hmem ((hbody x hmoved).2 hx)⟩
  · obtain ⟨hredeclared, hlisted⟩ := hbody _ hmoved
    rcases hv with hx | ⟨hnot, hx⟩
    · exact hredeclared hx
    · exact hnot (hlisted hx)

/-- What follows in one part follows in the whole form. -/
theorem Changes.follows {R : Form → Form → Prop} {apart : List String}
    (hR : ∀ g g', R g g' → z ∉ g.names →
      ∃ π, Moves (z :: apart) π ∧ Follows p (Unmoved (z :: apart)) π g g')
    (h : Changes R apart f f') (hz : z ∉ f.names) :
    ∃ π, Moves (z :: apart) π ∧ Follows p (Unmoved (z :: apart)) π f f' := by
  have hself (a : Form) {π : Equiv.Perm Var} (hπ : Moves (z :: apart) π) (hz : z ∉ a.names)
      (ha : ∀ x ∈ apart, a.Ignores x) : Follows p (Unmoved (z :: apart)) π a a :=
    Ignores.follows hπ (List.forall_mem_cons.mpr ⟨ignores_of_notMem hz, ha⟩)
  induction h with
  | here h => exact hR _ _ h hz
  | @argument g g' f before after hothers h ih =>
    rw [mem_names_apply, not_or] at hz
    obtain ⟨π, hπ, hg⟩ := ih fun hmem => hz.2 ⟨g, by simp, hmem⟩
    refine ⟨π, hπ, .apply f (follows_beside hg fun a ha => hself a hπ ?_ (hothers a ha))⟩
    refine fun hmem => hz.2 ⟨a, ?_, hmem⟩
    simpa using (List.mem_append.mp ha).imp_right .inr
  | @value g g' y before after body hothers hbody h ih =>
    rw [mem_names_letIn, not_or, not_or] at hz
    obtain ⟨hznames, hzvalues, hzbody⟩ := hz
    obtain ⟨π, hπ, hg⟩ := ih fun hmem => hzvalues ⟨(y, g), by simp, hmem⟩
    have hvalues : List.Forall₂ (Follows p (Unmoved (z :: apart)) π)
        ((before ++ (y, g) :: after).map Prod.snd) ((before ++ (y, g') :: after).map Prod.snd) := by
      rw [List.map_append, List.map_append, List.map_cons, List.map_cons]
      refine follows_beside hg ?_
      rw [← List.map_append]
      refine List.forall_mem_map.mpr fun b hb => hself b.2 hπ (fun hmem => ?_) (hothers b hb)
      refine hzvalues ⟨b, ?_, hmem⟩
      simpa using (List.mem_append.mp hb).imp_right .inr
    refine ⟨π, hπ, .letIn_unmoved hπ (by simp) hvalues (List.forall_mem_cons.mpr ⟨?_, hbody⟩)⟩
    exact ⟨fun h => hzbody (names_of_redeclared h), fun h => absurd (names_of_isFree h) hzbody⟩
  | @body g g' bindings hvalues h ih =>
    rw [mem_names_letIn, not_or, not_or] at hz
    obtain ⟨hznames, hzvalues, hzbody⟩ := hz
    obtain ⟨π, hπ, hg⟩ := ih hzbody
    have hlisted : ∀ b ∈ bindings.map Prod.fst, b ∉ z :: apart := by
      intro b hb hmoved
      rcases List.mem_cons.mp hmoved with rfl | hapart
      · exact hznames hb
      · obtain ⟨e, he, rfl⟩ := List.mem_map.mp hb
        exact (hvalues e he _ hapart).1 rfl
    refine ⟨π, hπ, .letIn_body hπ.sort rfl (List.forall₂_same.mpr ?_) hg ?_ ?_⟩
    · refine List.forall_mem_map.mpr fun b hb => hself b.2 hπ (fun hmem => hzvalues ⟨b, hb, hmem⟩) ?_
      exact fun x hx => (hvalues b hb x hx).2
    · rintro y _ ⟨rfl, -⟩
      exact fun _ _ => Iff.rfl
    · exact fun v _ k hk => eq_apply_iff_of_fixed (hπ.fixed k (hlisted _ hk))
  | @quantified g g' bound h ih =>
    rw [mem_names_quantified, not_or] at hz
    obtain ⟨π, hπ, hg⟩ := ih hz.2
    refine ⟨π, hπ, .quantified_body hg ?_ fun _ _ hy => hy⟩
    rintro y _ ⟨rfl, hy⟩
    exact ⟨fun _ _ => Iff.rfl, fun _ => ⟨rfl, hy⟩⟩

end Places

section Binders

/-- A name of a `let` gets a new name in the `let` and in its body. The `let` lists the name once,
and its body does not declare it again. -/
inductive RenamesLet (x z : String) : Form → Form → Prop
  | intro (before : List (String × Form)) (value : Form) (after : List (String × Form))
      (body : Form) (honce : x ∉ (before ++ after).map Prod.fst)
      (hbody : x ∉ body.redeclared) :
      RenamesLet x z (.letIn (before ++ (x, value) :: after) body)
        (.letIn (before ++ (z, value) :: after) (body.renameFree x z))

/-- A variable of a quantifier gets a new name in the quantifier and in its body. The quantifier lists
the variable once, and its body does not use the variable and declare the name again. -/
inductive RenamesQuantifier (x z : String) : Form → Form → Prop
  | intro (before : List (String × BaseSort)) (sort : BaseSort)
      (after : List (String × BaseSort)) (body : Form)
      (honce : x ∉ (before ++ after).map Prod.fst)
      (hbody : body.isFree x = true → x ∉ body.redeclared) :
      RenamesQuantifier x z (.quantified (before ++ (x, sort) :: after) body)
        (.quantified (before ++ (z, sort) :: after) (body.renameFree x z))

/-- A list with one entry for a name, which is renamed. -/
theorem map_swap_listed {α : Type} {before after : List (String × α)} {a : α}
    (hx : x ∉ (before ++ after).map Prod.fst) (hz : z ∉ (before ++ after).map Prod.fst) :
    (before ++ (x, a) :: after).map (fun e => (Equiv.swap x z e.1, e.2)) =
      before ++ (z, a) :: after := by
  have hsame : (before ++ after).map (fun e => (Equiv.swap x z e.1, e.2)) = before ++ after := by
    refine (List.map_congr_left fun e he => ?_).trans (List.map_id _)
    have hmem : e.1 ∈ (before ++ after).map Prod.fst := List.mem_map_of_mem he
    have hfixed : Equiv.swap x z e.1 = e.1 :=
      Equiv.swap_apply_of_ne_of_ne (fun h => hx (h ▸ hmem)) fun h => hz (h ▸ hmem)
    rw [hfixed]
    rfl
  rw [List.map_append] at hsame
  obtain ⟨hbefore, hafter⟩ := List.append_inj hsame (List.length_map _)
  rw [List.map_append, List.map_cons, hbefore, hafter, Equiv.swap_apply_left]

theorem notMem_of_listed {α : Type} {before after : List (String × α)} {a : α}
    (hz : z ∉ (before ++ (x, a) :: after).map Prod.fst) : z ∉ (before ++ after).map Prod.fst := by
  simp only [List.map_append, List.map_cons, List.mem_append, List.mem_cons] at hz ⊢
  tauto

theorem count_listed {α : Type} {before after : List (String × α)} {a : α}
    (hx : x ∉ (before ++ after).map Prod.fst) :
    ((before ++ (x, a) :: after).map Prod.fst).count x ≤ 1 := by
  have hnone := List.count_eq_zero.mpr hx
  rw [List.map_append, List.count_append] at hnone
  rw [List.map_append, List.map_cons, List.count_append, List.count_cons_self]
  omega

theorem Called.matches {y y' : String} (h : Called x z y y') (names : List String) :
    Scope.Matches (Equiv.swap x z) names y y' := by
  obtain ⟨-, rfl⟩ := h
  exact fun _ _ => (Equiv.swap x z).injective.eq_iff.symm

theorem Called.unmoved {y y' : String} (h : Called x z y y') (hx : y ≠ x) : Unmoved [z, x] y y' := by
  rcases h.cases with ⟨heq, -⟩ | ⟨heq, -, hz⟩
  · exact absurd heq hx
  · exact ⟨heq, by simp [hz, hx]⟩

variable {f f' : Form}

/-- A `let` stands for the same term under a new name. -/
theorem RenamesLet.follows (hx : ∀ sort, nameTerm p sort x = .var ⟨x, sort.getD .int⟩)
    (hz : ∀ sort, nameTerm p sort z = .var ⟨z, sort.getD .int⟩)
    (h : RenamesLet x z f f') (hfresh : z ∉ f.names) : Follows p (Unmoved [z]) id f f' := by
  obtain ⟨before, value, after, body, honce, hbody⟩ := h
  rw [mem_names_letIn, not_or, not_or] at hfresh
  obtain ⟨hznames, hzvalues, hzbody⟩ := hfresh
  have hpairs := map_swap_listed (a := value) honce (notMem_of_listed hznames)
  have hmem : x ∈ (before ++ (x, value) :: after).map Prod.fst := by simp
  have hxz : x ≠ z := fun e => hznames (e ▸ hmem)
  have hgone : x ∉ (before ++ (z, value) :: after).map Prod.fst := by
    simp only [List.map_append, List.map_cons, List.mem_append, List.mem_cons] at honce ⊢
    tauto
  refine .letIn (r := Equiv.swap x z) (fun _ => rfl) ?_ ?_
    (follows_renameFree hxz hx hz hbody hzbody) ?_ ?_ ?_ ?_
  · rw [← hpairs, List.map_map, List.map_map]
    rfl
  · rw [← hpairs, List.map_map]
    refine List.forall₂_same.mpr (List.forall_mem_map.mpr fun b hb => ?_)
    refine follows_self (fun y y' hy => hy.1) fun y hy => ⟨rfl, fun hmoved => ?_⟩
    obtain rfl := List.mem_singleton.mp hmoved
    exact hzvalues ⟨b, hb, names_of_isFree hy⟩
  · intro y y' hy
    refine ⟨hy.matches _, fun hnot => ?_⟩
    obtain ⟨heq, hmoved⟩ := hy.unmoved fun e => hnot (e ▸ hmem)
    exact ⟨heq, fun h => hmoved (List.mem_cons.mpr (.inl (List.mem_singleton.mp h)))⟩
  · rintro y _ ⟨rfl, hy⟩
    by_cases hyx : y = x
    · -- Behind the `let` the old name has the sort that it has before, renamed or not.
      subst hyx
      refine .inr ⟨⟨count_listed honce, hbody⟩, ?_, ?_⟩
      · rw [List.count_eq_zero.mpr hgone]
        omega
      · exact fun hmem => hbody (mem_redeclared_renameFree.mp hmem)
    · have hcalled := called_of_ne hyx fun e => hy (List.mem_singleton.mpr e)
      exact .inl ⟨hcalled.matches _, fun _ => hcalled⟩
  · exact fun v _ k _ => (Var.swapNames x z).injective.eq_iff
  · intro v hv
    refine Var.swapNames_of_ne (fun e => ?_) fun e => hzbody (e ▸ ?_)
    · rcases hv with h | ⟨h, -⟩
      · exact hbody (e ▸ h)
      · exact h (e ▸ hmem)
    · exact hv.elim names_of_redeclared fun h => names_of_isFree h.2

/-- A quantifier stands for the same term under a new name, up to the name of its variable. -/
theorem RenamesQuantifier.follows (hx : ∀ sort, nameTerm p sort x = .var ⟨x, sort.getD .int⟩)
    (hz : ∀ sort, nameTerm p sort z = .var ⟨z, sort.getD .int⟩)
    (h : RenamesQuantifier x z f f') (hfresh : z ∉ f.names) :
    ∃ π, Moves [z, x] π ∧ Follows p (Unmoved [z, x]) π f f' := by
  obtain ⟨before, sort, after, body, honce, hbody⟩ := h
  rw [mem_names_quantified, not_or] at hfresh
  obtain ⟨hznames, hzbody⟩ := hfresh
  have hmem : x ∈ (before ++ (x, sort) :: after).map Prod.fst := by simp
  have hxz : x ≠ z := fun e => hznames (e ▸ hmem)
  rw [← map_swap_listed (a := sort) honce (notMem_of_listed hznames)]
  by_cases hused : body.isFree x = true
  · refine ⟨Var.swapNames x z, ⟨fun _ => rfl, fun v hv => ?_⟩, ?_⟩
    · simp only [List.mem_cons, List.not_mem_nil, or_false, not_or] at hv
      exact Var.swapNames_of_ne hv.2 hv.1
    · refine .quantified (follows_renameFree hxz hx hz (hbody hused) hzbody) (fun y y' hy => ?_)
        fun y y' hy => ?_
      · exact ⟨hy.matches _, fun hnot => hy.unmoved fun e => hnot (e ▸ hmem)⟩
      · obtain ⟨rfl, hmoved⟩ := hy
        simp only [List.mem_cons, List.not_mem_nil, or_false, not_or] at hmoved
        exact called_of_ne hmoved.2 hmoved.1
  · -- Nothing in the body is renamed, so the variable is just left out.
    rw [renameFree_eq_self hused]
    have hsame : Follows p (Unmoved [z, x]) (Equiv.refl Var) body body := by
      refine follows_self (fun y y' hy => hy.1) fun y hy => ⟨rfl, fun hmoved => ?_⟩
      simp only [List.mem_cons, List.not_mem_nil, or_false] at hmoved
      rcases hmoved with rfl | rfl
      · exact hzbody (names_of_isFree hy)
      · exact hused hy
    refine ⟨Equiv.refl Var, ⟨fun _ => rfl, fun _ _ => rfl⟩, .quantified hsame ?_ fun _ _ hy => hy⟩
    rintro y _ ⟨rfl, hmoved⟩
    simp only [List.mem_cons, List.not_mem_nil, or_false, not_or] at hmoved
    exact ⟨(called_of_ne hmoved.2 hmoved.1).matches _, fun _ => ⟨rfl, by simp [hmoved]⟩⟩

end Binders

end Reader.Form

end HornSaturation
