import Recheck.Proofs.Syntax.Placing

/-!
# Parts of a tree and the tokens they are read from

What a part of the parser reads from one index up to another holds spots between the two edges, is hardly higher than
twice the number of its tokens, and declares no more than that (`Fits`). So lists fit as soon as their items do
(`Row.fits`), and a node fits if its parts stand one behind the other and it has a token of its own.
-/

set_option autoImplicit false

namespace Recheck.Syntax

open Recheck.Syntax.Parser

variable {T : List Token} {i j : Nat}

/-! ## Contents -/

/-- The spots of a content lie behind the edge `lo`, and its size is bounded by the tokens from `i` up to `j`. -/
structure Fits (T : List Token) (lo i j height declared : Nat) (x : Content) : Prop where
  placed : Placed T (edge T lo) (edge T j) x.spots
  height_le : x.height ≤ 2 * (j - i) + height
  declared_le : x.declared ≤ 2 * (j - i) + declared

namespace Fits

variable {lo lo' i' j' m m' h h' d d' : Nat} {x y : Content}

theorem none : Fits T lo i j h d .none := ⟨.nil, Nat.zero_le _, Nat.zero_le _⟩

/-- Spots alone have no size. -/
theorem ofSpots {spots : List Spot} (hs : Placed T (edge T lo) (edge T j) spots) :
    Fits T lo i j h d (.ofSpots spots) := ⟨hs, Nat.zero_le _, Nat.zero_le _⟩

theorem mono (hT : Ruled T) (hx : Fits T lo i j h d x)
    (hle : lo' ≤ lo ∧ j ≤ j' ∧ 2 * (j - i) + h ≤ 2 * (j' - i') + h' ∧ 2 * (j - i) + d ≤ 2 * (j' - i') + d') :
    Fits T lo' i' j' h' d' x where
  placed := hx.placed.mono (hT.edge_mono hle.1) (hT.edge_mono hle.2.1)
  height_le := Nat.le_trans hx.height_le hle.2.2.1
  declared_le := Nat.le_trans hx.declared_le hle.2.2.2

/-- Two contents, the second behind the first. -/
theorem join (hT : Ruled T) (hx : Fits T lo i m h d x) (hy : Fits T lo' m' j h' d' y) {u v w : Nat}
    (hle : lo ≤ m ∧ m ≤ j ∧ m ≤ lo' ∧ 2 * (m - i) + h ≤ 2 * (j - u) + v ∧ 2 * (j - m') + h' ≤ 2 * (j - u) + v ∧
      2 * (m - i) + d + (2 * (j - m') + d') ≤ 2 * (j - u) + w) : Fits T lo u j v w (x ++ y) where
  placed := by
    have hmj := hT.edge_mono hle.2.1
    exact hx.placed.append (hy.placed.mono (hT.edge_mono hle.2.2.1) (Nat.le_refl _)) (hT.edge_mono hle.1) hmj
  height_le := by
    have := hx.height_le
    have := hy.height_le
    rw [Content.height_append]
    omega
  declared_le := by
    have := hx.declared_le
    have := hy.declared_le
    rw [Content.declared_append]
    omega

theorem append (hT : Ruled T) (hx : Fits T lo i m h d x) (hy : Fits T lo' m' j h d' y)
    (hle : lo ≤ m ∧ i ≤ m ∧ m ≤ m' ∧ m ≤ lo' ∧ m' ≤ j) : Fits T lo i j h (d + d') (x ++ y) :=
  hx.join hT hy (by omega)

theorem inside (hx : Fits T lo i j h d x) : Fits T lo i j (h + 1) d x.inside :=
  ⟨hx.placed, Nat.succ_le_succ hx.height_le, hx.declared_le⟩

theorem declaring (hx : Fits T lo i j h d x) : Fits T lo i j h (d + 1) x.declaring :=
  ⟨hx.placed, hx.height_le, Nat.succ_le_succ hx.declared_le⟩

end Fits

/-! ## Rows -/

/-- Items one behind the other, with `gap` tokens at least between any two. -/
inductive Row {α : Type} (gap : Nat) (P : Nat → Nat → α → Prop) : Nat → Nat → List α → Prop where
  | nil {i j : Nat} : i ≤ j → Row gap P i j []
  | last {i a b j : Nat} {x : α} : i ≤ a → a ≤ b → b ≤ j → P a b x → Row gap P i j [x]
  | cons {i a b j : Nat} {x : α} {xs : List α} : i ≤ a → a ≤ b → P a b x → Row gap P (b + gap) j xs →
      Row gap P i j (x :: xs)

namespace Row

variable {α : Type} {gap : Nat} {P : Nat → Nat → α → Prop} {xs : List α}

theorem le (h : Row gap P i j xs) : i ≤ j := by
  induction h with
  | nil h => exact h
  | last h₁ h₂ h₃ => omega
  | cons h₁ h₂ _ _ ih => omega

theorem widen {k : Nat} (h : Row gap P i j xs) (hk : k ≤ i) : Row gap P k j xs := by
  cases h with
  | nil h => exact .nil (by omega)
  | last h₁ h₂ h₃ hx => exact .last (by omega) h₂ h₃ hx
  | cons h₁ h₂ hx hrest => exact .cons (by omega) h₂ hx hrest

theorem extend {k : Nat} (h : Row gap P i j xs) (hk : j ≤ k) : Row gap P i k xs := by
  induction h with
  | nil h => exact .nil (by omega)
  | last h₁ h₂ h₃ hx => exact .last h₁ h₂ (by omega) hx
  | cons h₁ h₂ hx _ ih => exact .cons h₁ h₂ hx (ih hk)

theorem exists_of_mem (h : Row gap P i j xs) {x : α} (hx : x ∈ xs) : ∃ a b, i ≤ a ∧ a ≤ b ∧ b ≤ j ∧ P a b x := by
  induction h with
  | nil => exact nomatch hx
  | @last i a b j y h₁ h₂ h₃ hy =>
    obtain rfl := List.mem_singleton.mp hx
    exact ⟨a, b, h₁, h₂, h₃, hy⟩
  | @cons i a b j y ys h₁ h₂ hy hrest ih =>
    rcases List.mem_cons.mp hx with rfl | hx
    · exact ⟨a, b, h₁, h₂, by have := hrest.le; omega, hy⟩
    · obtain ⟨a', b', h₁', h₂', h₃', hx⟩ := ih hx
      exact ⟨a', b', by omega, h₂', h₃', hx⟩

theorem imp {Q : Nat → Nat → α → Prop} (h : Row gap P i j xs) (hPQ : ∀ a b x, P a b x → Q a b x) : Row gap Q i j xs := by
  induction h with
  | nil h => exact .nil h
  | last h₁ h₂ h₃ hx => exact .last h₁ h₂ h₃ (hPQ _ _ _ hx)
  | cons h₁ h₂ hx _ ih => exact .cons h₁ h₂ (hPQ _ _ _ hx) ih

theorem close (h : Row gap P i j xs) : Row 0 P i j xs := by
  induction h with
  | nil h => exact .nil h
  | last h₁ h₂ h₃ hx => exact .last h₁ h₂ h₃ hx
  | cons h₁ h₂ hx _ ih => exact .cons h₁ h₂ hx (ih.widen (by omega))

/-- The spots of the items together. -/
theorem placed (hT : Ruled T) {f : α → List Spot} (h : Row 0 P i j xs)
    (hP : ∀ a b x, P a b x → Placed T (edge T a) (edge T b) (f x)) : Placed T (edge T i) (edge T j) (xs.flatMap f) := by
  induction h with
  | nil => exact .nil
  | last h₁ h₂ h₃ hx =>
    rw [List.flatMap_singleton]
    exact (hP _ _ _ hx).mono (hT.edge_mono h₁) (hT.edge_mono h₃)
  | cons h₁ h₂ hx hrest ih =>
    have first := (hP _ _ _ hx).mono (hT.edge_mono h₁) (Nat.le_refl _)
    rw [List.flatMap_cons]
    exact first.append ih (hT.edge_mono (Nat.le_trans h₁ h₂)) (hT.edge_mono hrest.le)

/-- The contents of the items together, where each lies behind the token in front of it. -/
theorem fits (hT : Ruled T) {f : α → Content} {h d : Nat} (hd : d ≤ 2 * gap) (hrow : Row gap P i j xs)
    (hP : ∀ a b x, P a b x → ∀ lo, lo + gap ≤ a → Fits T lo a b h d (f x)) (lo : Nat) (hlo : lo + gap ≤ i) :
    Fits T lo i j h d (xs.foldr (fun x c => f x ++ c) .none) := by
  induction hrow generalizing lo with
  | nil => exact .none
  | @last i a b j x h₁ h₂ h₃ hx =>
    have first := hP a b x hx lo (by omega)
    refine ⟨?_, ?_, ?_⟩
    · simpa using first.placed.mono (Nat.le_refl _) (hT.edge_mono h₃)
    · have := first.height_le
      simp
      omega
    · have := first.declared_le
      simp
      omega
  | @cons i a b j x xs h₁ h₂ hx hrest ih =>
    have first := hP a b x hx lo (by omega)
    have rest := ih b (Nat.le_refl _)
    have hle := hrest.le
    refine ⟨?_, ?_, ?_⟩
    · exact first.placed.append rest.placed (hT.edge_mono (by omega)) (hT.edge_mono (by omega))
    · have := first.height_le
      have := rest.height_le
      simp only [List.foldr_cons, Content.height_append]
      omega
    · have := first.declared_le
      have := rest.declared_le
      simp only [List.foldr_cons, Content.declared_append]
      omega

/-- The contents of the items together, where each lies behind its own first edge. -/
theorem fits_of_le (hT : Ruled T) {f : α → Content} {h : Nat} (hrow : Row gap P i j xs)
    (hP : ∀ a b x, P a b x → Fits T a a b h 0 (f x)) : Fits T i i j h 0 (xs.foldr (fun x c => f x ++ c) .none) :=
  hrow.close.fits hT (Nat.zero_le _)
    (fun a b x hx _ hlo => ⟨(hP a b x hx).placed.mono (hT.edge_mono hlo) (Nat.le_refl _), (hP a b x hx).height_le,
      (hP a b x hx).declared_le⟩) i (Nat.le_refl i)

end Row

/-! ### Lists of nodes -/

theorem eq_foldr {α : Type} {F : List α → Content} {f : α → Content} (nil : F [] = .none)
    (cons : ∀ x xs, F (x :: xs) = f x ++ F xs) (xs : List α) : F xs = xs.foldr (fun x c => f x ++ c) .none := by
  induction xs with
  | nil => exact nil
  | cons x xs ih => rw [cons, ih, List.foldr_cons]

theorem typesContent_eq (types : List TypeNode) :
    typesContent types = types.foldr (fun t c => t.content ++ c) .none :=
  eq_foldr rfl (fun _ _ => rfl) types

theorem membersContent_eq (members : List Member) :
    membersContent members = members.foldr (fun m c => typeContent? m.type ++ c) .none :=
  eq_foldr rfl (fun m _ => by cases m; rfl) members

theorem annotationsContent_eq (params : List Param) :
    annotationsContent params = params.foldr (fun p c => typeContent? p.type ++ c) .none :=
  eq_foldr rfl (fun p _ => by cases p; rfl) params

theorem exprsContent_eq (items : List Expr) :
    exprsContent items = items.foldr (fun e c => e.content ++ c) .none :=
  eq_foldr rfl (fun _ _ => rfl) items

theorem propertiesContent_eq (properties : List Property) :
    propertiesContent properties = properties.foldr (fun p c => p.content ++ c) .none :=
  eq_foldr rfl (fun _ _ => rfl) properties

theorem paramsContent_eq (params : List Param) :
    paramsContent params = params.foldr (fun p c => p.content ++ c) .none :=
  eq_foldr rfl (fun _ _ => rfl) params

theorem declaratorsContent_eq (declarators : List Declarator) :
    declaratorsContent declarators = declarators.foldr (fun d c => d.content ++ c) .none :=
  eq_foldr rfl (fun _ _ => rfl) declarators

theorem statementsContent_eq (statements : List Statement) :
    statementsContent statements = statements.foldr (fun s c => s.content ++ c) .none :=
  eq_foldr rfl (fun _ _ => rfl) statements

/-! ## Nodes -/

/-- What is said of a type that is read from one index up to another. -/
abbrev TypeReads (T : List Token) (i j : Nat) (type : TypeNode) : Prop := Fits T i i j 1 0 type.content

/-- Whether the values and the rows of arguments among some spots begin behind an edge. -/
def Deep (T : List Token) (i : Nat) (spots : List Spot) : Prop :=
  ∀ x ∈ spots, x.1 = .value ∨ x.1 = .surplus → edge T i ≤ x.2.start

section

variable {hi : Nat} {spots spots' : List Spot}

theorem Placed.deep (h : Placed T (edge T i) hi spots) : Deep T i spots := by
  rintro ⟨role, s⟩ hx hrole
  have := (h.between _ hx).2.2
  rcases hrole with rfl | rfl <;> exact this.1

theorem Deep.mono (hT : Ruled T) (h : Deep T j spots) (hij : i ≤ j) : Deep T i spots :=
  fun x hx hrole => Nat.le_trans (hT.edge_mono hij) (h x hx hrole)

theorem Deep.append (h : Deep T i spots) (h' : Deep T i spots') : Deep T i (spots ++ spots') :=
  fun x hx hrole => (List.mem_append.mp hx).elim (h x · hrole) (h' x · hrole)

theorem Row.deep (hT : Ruled T) {α : Type} {gap : Nat} {P : Nat → Nat → α → Prop} {xs : List α} {f : α → Content}
    (hrow : Row gap P i j xs) (hP : ∀ a b x, P a b x → Deep T a (f x).spots) :
    Deep T i (xs.foldr (fun x c => f x ++ c) .none).spots := by
  induction hrow with
  | nil => exact fun x hx => nomatch hx
  | last h₁ _ _ hx => exact ((hP _ _ _ hx).mono hT h₁).append fun x hx => nomatch hx
  | cons h₁ h₂ hx _ ih => exact ((hP _ _ _ hx).mono hT h₁).append (ih.mono hT (by omega))

end

/-- A spot that a node from one index up to another leaves to its parts: not the value of the node itself, and no row of
arguments that begins where the node does. -/
def Proper (T : List Token) (i j : Nat) (x : Spot) : Prop :=
  (x.1 = .value → x.2 ≠ across T i j) ∧ (x.1 = .surplus → edge T i < x.2.start)

/-- What is said of a kind of expression whose node reaches from one index up to another. -/
structure KindReads (T : List Token) (i j : Nat) (kind : ExprKind) : Prop where
  fits : Fits T i i j 0 0 kind.content
  proper : ∀ x ∈ kind.content.spots, Proper T i j x
  /-- A variable of a single token is an identifier. -/
  ident : ∀ name, kind = .ident name → name = "import" ∨ i + 1 < j ∨ kindOf T i = .identifier

/-- What is said of an expression. One that could not be read has the span of the token that was not read and of the one
before. -/
def ExprReads (T : List Token) (i j : Nat) (e : Expr) : Prop :=
  ∃ a b, i ≤ a ∧ a ≤ b ∧ b ≤ j ∧ b < T.length ∧ e.span = (spanOf T a).merge (spanOf T (b - 1)) ∧
    (e.kind = .error ∨ a < b ∧ KindReads T a b e.kind)

section

variable {lo hi m h d : Nat} {e : Expr} {kind : ExprKind} {spots : List Spot}

theorem Deep.proper (hT : Ruled T) (hs : Deep T m spots) (hi : i < m) (hm : m < T.length) :
    ∀ x ∈ spots, Proper T i j x := by
  have hedge := hT.edge_lt hi hm
  rintro ⟨role, s⟩ hx
  refine ⟨?_, ?_⟩ <;> rintro rfl
  · rintro rfl
    have := hs _ hx (.inl rfl)
    simp only [across] at this
    omega
  · have := hs _ hx (.inr rfl)
    simp only at this ⊢
    omega

/-- The node as a spot lies between its own edges. -/
theorem Ruled.between_value (hT : Ruled T) (hij : i < j) (hj : j < T.length) :
    Between T (edge T i) (edge T j) (.value, across T i j) := by
  have hlast := hT.ordered (j - 1) (by omega)
  have hstop := hT.stop_le_edge (show j - 1 + 1 < T.length by omega)
  have hstart := hT.edge_mono (show i ≤ j - 1 by omega)
  rw [edge_of_lt (show j - 1 < T.length by omega)] at hstart
  rw [Nat.sub_add_cancel (by omega)] at hstop
  have hlimit := hT.edge_le_limit j
  refine ⟨?_, ?_, Nat.le_refl _, ?_, hstop⟩
  all_goals simp only [across]; omega

theorem ExprKind.bareSpots_sublist (kind : ExprKind) (span : Span) : (kind.bareSpots span).Sublist (kind.spots span) := by
  unfold ExprKind.bareSpots ExprKind.spots
  split
  · exact List.sublist_append_left _ _
  · exact List.Sublist.refl _
  · exact List.nil_sublist _

/-- What is left of a content where nothing is asked of the value. -/
theorem Expr.bareContent_sublist (e : Expr) : e.bareContent.spots.Sublist e.content.spots := by
  rw [e.bareContent_eq, e.content_eq]
  exact (e.kind.bareSpots_sublist e.span).append (List.Sublist.refl _)

theorem Fits.bare {lo i' : Nat} (h : Fits T lo i' j m d e.content) : Fits T lo i' j m d e.bareContent := by
  refine ⟨h.placed.sublist e.bareContent_sublist, ?_, ?_⟩
  · simpa [e.bareContent_eq, e.content_eq] using h.height_le
  · simpa [e.bareContent_eq, e.content_eq] using h.declared_le

/-- A node itself is no row of arguments. -/
theorem ExprKind.role_of_mem_spots (kind : ExprKind) {span : Span} {x : Spot} (hx : x ∈ kind.spots span) :
    x.1 ≠ .surplus := by
  unfold ExprKind.spots nameSpots at hx
  rintro hrole
  split at hx <;> (try split at hx) <;> simp at hx <;> rcases hx with rfl | rfl <;> exact nomatch hrole

namespace KindReads

theorem placed_spots (hT : Ruled T) (h : KindReads T i j kind) (hij : i < j) (hj : j < T.length) :
    Placed T (edge T i) (edge T j) (kind.spots (across T i j) ++ kind.content.spots) := by
  have hvalue := hT.between_value hij hj
  have hcons : Placed T (edge T i) (edge T j) ((.value, across T i j) :: kind.content.spots) :=
    .cons hvalue h.fits.placed fun hmem => (h.proper _ hmem).1 rfl rfl
  unfold ExprKind.spots
  split
  · exact h.fits.placed
  · rename_i name
    unfold nameSpots
    split
    · exact hcons
    · rename_i himport
      refine .cons ⟨hvalue.1, hvalue.2.1, ?_⟩ hcons ?_
      · have hedge := hT.edge_lt hij hj
        have hkey : key T (across T i j) = 2 * edge T i + 1 := by
          rcases h.ident name rfl with h | h | h
          · exact absurd h himport
          · exact hT.key_across h hj
          · by_cases hone : j = i + 1
            · have hspan : across T i j = spanOf T i := by
                subst hone
                rw [across, edge_of_lt (by omega)]
                rfl
              rw [hspan, hT.key_identifier (by omega) h]
            · exact hT.key_across (by omega) hj
        simp only [hkey]
        omega
      · rintro (_ | ⟨_, hmem⟩)
        cases hmem
  · exact hcons

/-- A kind whose parts all stand behind its first token. -/
theorem of_behind (hT : Ruled T) (h : Fits T (i + 1) i j 0 0 kind.content) (hi : i + 1 < T.length)
    (hkind : ∀ name, kind ≠ .ident name) : KindReads T i j kind where
  fits := ⟨h.placed.mono (hT.edge_mono (Nat.le_succ i)) (Nat.le_refl _), h.height_le, h.declared_le⟩
  proper := h.placed.deep.proper hT (Nat.lt_succ_self i) hi
  ident name h := absurd h (hkind name)

end KindReads

namespace ExprReads

theorem of_kind (h : KindReads T i j kind) (hij : i < j) (hj : j < T.length) :
    ExprReads T i j ⟨kind, (spanOf T i).merge (spanOf T (j - 1))⟩ :=
  ⟨i, j, Nat.le_refl i, Nat.le_of_lt hij, Nat.le_refl j, hj, rfl, .inr ⟨hij, h⟩⟩

theorem mono {i' j' : Nat} (h : ExprReads T i j e) (hi : i' ≤ i) (hj : j ≤ j') : ExprReads T i' j' e := by
  obtain ⟨a, b, hia, hab, hbj, h⟩ := h
  exact ⟨a, b, by omega, hab, by omega, h⟩

/-- Without the span nothing of an error is left. -/
theorem content_error (h : e.kind = .error) : e.content = Content.none.inside := by
  rw [e.content_eq, h]
  rfl

theorem fits (hT : Ruled T) (h : ExprReads T i j e) : Fits T i i j 1 0 e.content := by
  obtain ⟨a, b, hia, hab, hbj, hb, hspan, herror | ⟨hlt, hkind⟩⟩ := h
  · rw [content_error herror]
    exact Fits.none.inside
  · rw [hT.merge_eq_across hlt (by omega)] at hspan
    rw [e.content_eq, hspan]
    have hinner : Fits T a a b 0 0 (.ofSpots (e.kind.spots (across T a b)) ++ e.kind.content) := by
      refine ⟨hkind.placed_spots hT hlt (by omega), ?_, ?_⟩
      · simpa using hkind.fits.height_le
      · simpa using hkind.fits.declared_le
    exact hinner.inside.mono hT (by omega)

/-- The spots of the first part of a node. -/
theorem proper (hT : Ruled T) (h : ExprReads T i m e) (hm : m < j) (hj : j < T.length) :
    ∀ x ∈ e.content.spots, Proper T i j x := by
  have hplaced := (h.fits hT).placed
  have hstop : edge T m < (across T i j).stop := by
    have h1 := hT.edge_mono (show m ≤ j - 1 by omega)
    have h2 := hT.ordered (j - 1) (by omega)
    rw [edge_of_lt (show j - 1 < T.length by omega)] at h1
    simp only [across]
    omega
  rintro ⟨role, s⟩ hx
  refine ⟨?_, ?_⟩ <;> rintro rfl
  · rintro rfl
    have := (hplaced.between _ hx).2.2
    simp only at this
    omega
  · obtain ⟨a, b, hia, hab, hbj, hb, hspan, herror | ⟨hlt, hkind⟩⟩ := h
    · rw [content_error herror] at hx
      cases hx
    · have hedge := hT.edge_mono hia
      rw [e.content_eq] at hx
      rcases List.mem_append.mp hx with hx | hx
      · exact absurd rfl (e.kind.role_of_mem_spots hx)
      · have := (hkind.proper _ hx).2 rfl
        exact Nat.lt_of_le_of_lt hedge this

/-- The same kind of expression between brackets. -/
theorem kind_of_inner (hT : Ruled T) (h : ExprReads T (i + 1) m e) (hmj : m ≤ j) :
    KindReads T i j e.kind := by
  obtain ⟨a, b, hia, hab, hbm, hb, -, herror | ⟨hlt, hkind⟩⟩ := h
  · rw [herror]
    exact ⟨.none, nofun, nofun⟩
  · exact {
      fits := hkind.fits.mono hT (by omega)
      proper := hkind.fits.placed.deep.proper hT (by omega) (by omega)
      ident := fun name _ => .inr (.inl (by omega)) }

/-- Where the span of an expression begins: nowhere in front of the token before. -/
theorem start_bounds (hT : Ruled T) (h : ExprReads T i j e) (hi : 0 < i) :
    edge T (i - 1) ≤ e.span.start ∧ e.span.start < edge T j ∧ e.span.start ≤ e.span.stop ∧
      e.span.stop ≤ limit T := by
  obtain ⟨a, b, hia, hab, hbj, hb, hspan, -⟩ := h
  have hlast := hT.forward (b - 1)
  have hlimit := hT.stop_le_limit (show b - 1 < T.length by omega)
  have hj := hT.edge_mono hbj
  by_cases hlt : a < b
  · rw [hT.merge_eq_across hlt hb] at hspan
    have h₁ := hT.edge_mono (show i - 1 ≤ a by omega)
    have h₂ := hT.edge_lt hlt hb
    have h₃ := hT.edge_mono (show a ≤ b - 1 by omega)
    rw [edge_of_lt (show b - 1 < T.length by omega)] at h₃
    rw [hspan]
    simp only [across]
    omega
  · obtain rfl : a = b := by omega
    have h₁ := hT.edge_mono (show i - 1 ≤ a - 1 by omega)
    have h₂ := hT.edge_lt (show a - 1 < a by omega) hb
    have h₃ := hT.forward a
    have h₄ := hT.stop_le_limit hb
    rw [edge_of_lt (show a - 1 < T.length by omega)] at h₁ h₂
    have h₅ := h₂
    rw [edge_of_lt hb] at h₅
    rw [hspan]
    simp only [Span.start_merge, Span.stop_merge]
    omega

end ExprReads

/-- An argument, where those behind it begin later. -/
theorem ExprReads.fits_arg (hT : Ruled T) (h : ExprReads T i j e) (hi : 0 < i) {rest : List Expr}
    (hrest : ∀ last ∈ rest, edge T j ≤ last.span.start ∧ last.span.stop ≤ limit T) :
    Fits T (i - 1) i j 1 0 (.ofSpots [(.surplus, coverSpan e rest)] ++ e.content) := by
  have hbounds := h.start_bounds hT hi
  have hcover : (coverSpan e rest).start = e.span.start ∧ (coverSpan e rest).start ≤ (coverSpan e rest).stop ∧
      (coverSpan e rest).stop ≤ limit T := by
    unfold coverSpan
    cases hlast : rest.getLast? with
    | none => exact ⟨rfl, hbounds.2.2⟩
    | some last =>
      have := hrest last (List.mem_of_getLast? hlast)
      simp only [Span.start_merge, Span.stop_merge]
      omega
  have hfresh : (Role.surplus, coverSpan e rest) ∉ e.content.spots := by
    intro hmem
    obtain ⟨a, b, -, -, -, hb, hspan, herror | ⟨hlt, hkind⟩⟩ := h
    · rw [content_error herror] at hmem
      exact nomatch hmem
    · rw [hT.merge_eq_across hlt hb] at hspan
      rw [e.content_eq, Content.spots_inside, Content.spots_append, Content.spots_ofSpots, List.mem_append] at hmem
      rcases hmem with hmem | hmem
      · exact e.kind.role_of_mem_spots hmem rfl
      · have := (hkind.proper _ hmem).2 rfl
        simp only [hcover.1, hspan, across] at this
        omega
  have hplace : Between T (edge T (i - 1)) (edge T j) (.surplus, coverSpan e rest) :=
    ⟨hcover.2.1, hcover.2.2, by simpa only [hcover.1] using ⟨hbounds.1, hbounds.2.1⟩⟩
  have hfits := h.fits hT
  refine ⟨?_, ?_, ?_⟩
  · exact .cons hplace (hfits.placed.mono (hT.edge_mono (Nat.sub_le i 1)) (Nat.le_refl _)) hfresh
  · simpa using hfits.height_le
  · simpa using hfits.declared_le

/-- A row of arguments behind an opening parenthesis. -/
theorem Row.fits_args (hT : Ruled T) {args : List Expr} (h : Row 1 (ExprReads T) i j args) (hi : 0 < i) :
    Fits T (i - 1) i j 1 0 (argsContent args) := by
  induction h with
  | nil => exact .none
  | @last i a b j e h₁ h₂ h₃ he =>
    have hone := (he.fits_arg hT (by omega) (List.forall_mem_nil _)).append hT (Fits.none : Fits T b b b 1 0 .none) (by omega)
    exact hone.mono hT (by omega)
  | @cons i a b j e rest h₁ h₂ he hrest ih =>
    have hle := hrest.le
    have hfirst := he.fits_arg hT (by omega) fun last (hlast : last ∈ rest) => by
      obtain ⟨a', b', ha', -, -, hread⟩ := hrest.exists_of_mem hlast
      have hbounds := hread.start_bounds hT (by omega)
      have := hT.edge_mono (show b ≤ a' - 1 by omega)
      exact ⟨by omega, hbounds.2.2.2⟩
    exact (hfirst.append hT (ih (by omega)) (by omega)).mono hT (by omega)

end

/-! ## Names and statements -/

/-- A name that stands between two indices, read or missing. -/
def NameReads (T : List Token) (i j : Nat) (name : Ident) : Prop :=
  ∃ k, i ≤ k ∧ k ≤ j ∧ name.span = spanOf T k ∧ (k < j ∨ kindOf T k ≠ .identifier)

theorem NameReads.mono {i' j' : Nat} {name : Ident} (h : NameReads T i j name) (hi : i' ≤ i) (hj : j ≤ j') :
    NameReads T i' j' name := by
  obtain ⟨k, hik, hkj, hspan, hread⟩ := h
  exact ⟨k, by omega, by omega, hspan, hread.imp_left fun h => by omega⟩

theorem NameReads.between (hT : Ruled T) {name : Ident} (h : NameReads T i j name) (hj : j < T.length) {lo : Nat}
    (hlo : lo < i) {role : Role} (hrole : role ∉ [Role.param, .value, .module, .surplus]) :
    Between T (edge T lo) (edge T j) (role, name.span) := by
  obtain ⟨k, hik, hkj, hspan, hread⟩ := h
  rw [hspan]
  by_cases hname : role = .name
  · exact hT.between_name (.inl hname) (.inl (by omega)) hkj hj hread
  · refine hT.between_start ?_ (by omega) hkj hj
    simpa [hname] using hrole

/-- The names in a row, each with the token behind it. -/
theorem Row.placed_names (hT : Ruled T) {α : Type} {xs : List α} {f : α → Ident}
    (h : Row 1 (fun a b x => NameReads T a b (f x)) i j xs) (hj : j < T.length) {lo : Nat} (hlo : lo < i) {role : Role}
    (hrole : role ∉ [Role.param, .value, .module, .surplus]) :
    Placed T (edge T lo) (edge T j) (xs.map fun x => (role, (f x).span)) := by
  induction h generalizing lo with
  | nil => exact .nil
  | last h₁ h₂ h₃ hx => exact .single ((hx.mono h₁ h₃).between hT hj hlo hrole)
  | @cons i a b j x xs h₁ h₂ hx hrest ih =>
    have hle := hrest.le
    have hfirst := hx.between hT (by omega) (show lo < a by omega) hrole
    exact (Placed.single hfirst).append (ih hj (Nat.lt_succ_self b)) (hT.edge_mono (by omega)) (hT.edge_mono (by omega))

/-- What is said of a statement. -/
structure StatementReads (T : List Token) (i j : Nat) (s : Statement) : Prop where
  fits : Fits T i i j 2 0 s.content
  imports : Placed T (edge T i) (edge T j) s.importSpots

theorem StatementReads.mono (hT : Ruled T) {i₀ : Nat} {s : Statement} (h : StatementReads T i j s) (hi : i₀ ≤ i)
    (hij : i ≤ j) : StatementReads T i₀ j s :=
  ⟨h.fits.mono hT (by omega), h.imports.mono (hT.edge_mono hi) (Nat.le_refl _)⟩

/-- With the words in front of it. -/
theorem StatementReads.withSpan (hT : Ruled T) {i₀ : Nat} {s : Statement} (h : StatementReads T i j s) (hi : i₀ ≤ i)
    (hij : i ≤ j) (hs : s.isFixed = true) (span : Span) : StatementReads T i₀ j (s.withSpan span) := by
  refine StatementReads.mono hT ⟨?_, ?_⟩ hi hij
  · exact Statement.content_withSpan hs _ ▸ h.fits
  · exact s.importSpots_withSpan _ ▸ h.imports

/-- Two grammars that read alike from some index on. A statement is never empty, unless the text ends. -/
structure Agree (T : List Token) (i : Nat) (g g' : Grammar) : Prop where
  type : ∀ k, i ≤ k → Reads T g.type g'.type k fun t j => TypeReads T k j t
  postfixType : ∀ k, i ≤ k → Reads T g.postfixType g'.postfixType k fun t j => TypeReads T k j t
  expr : ∀ k, i ≤ k → Reads T g.expr g'.expr k fun e j => ExprReads T k j e
  binary : ∀ power k, i ≤ k → Reads T (g.binary power) (g'.binary power) k fun e j => ExprReads T k j e
  unary : ∀ k, i ≤ k → Reads T g.unary g'.unary k fun e j => ExprReads T k j e
  statement : ∀ k, i ≤ k → Reads T g.statement g'.statement k fun s j =>
    StatementReads T k j s ∧ (kindOf T k ≠ .eof → k < j)

theorem Agree.mono {g g' : Grammar} {k : Nat} (h : Agree T i g g') (hk : i ≤ k) : Agree T k g g' where
  type m hm := h.type m (Nat.le_trans hk hm)
  postfixType m hm := h.postfixType m (Nat.le_trans hk hm)
  expr m hm := h.expr m (Nat.le_trans hk hm)
  binary power m hm := h.binary power m (Nat.le_trans hk hm)
  unary m hm := h.unary m (Nat.le_trans hk hm)
  statement m hm := h.statement m (Nat.le_trans hk hm)

end Recheck.Syntax
