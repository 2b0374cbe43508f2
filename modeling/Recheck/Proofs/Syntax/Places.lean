import Mathlib.Data.List.Perm.Basic
import Mathlib.Data.List.Nodup
import Recheck.Proofs.Syntax.Pieces

/-!
# Places in a tree

A piece of a tree may occur in it twice, with the same text and the same span; the way down to it is another one each time
(`Piece.at?`). So what is found in a tree is counted by its places: a list holds what is found there once each if the places
can be listed without repetition, and the list goes along with them (`Lists`). Since every piece is larger than its parts
(`Piece.induct`), a list is made up along the parts (`Lists.parts`).
-/

set_option autoImplicit false

namespace Recheck.Syntax

namespace Piece

/-! ## Parts are smaller -/

/-- All of some pieces are smaller than a bound. -/
def Below (n : Nat) (ps : List Piece) : Prop := ∀ p ∈ ps, sizeOf p < n

namespace Below

variable {n : Nat} {p : Piece} {ps qs : List Piece} {α : Type} [SizeOf α] {make : α → Piece}

theorem nil : Below n [] := nofun

theorem cons (h : sizeOf p < n) (hs : Below n ps) : Below n (p :: ps) := List.forall_mem_cons.mpr ⟨h, hs⟩

theorem single (h : sizeOf p < n) : Below n [p] := cons h nil

theorem append (h : Below n ps) (hs : Below n qs) : Below n (ps ++ qs) := List.forall_mem_append.mpr ⟨h, hs⟩

theorem map (hmake : ∀ x, sizeOf (make x) = 1 + sizeOf x) {xs : List α} (h : sizeOf xs < n) : Below n (xs.map make) := by
  refine List.forall_mem_map.mpr fun x hx => ?_
  have := List.sizeOf_lt_of_mem hx
  rw [hmake]
  omega

theorem option (hmake : ∀ x, sizeOf (make x) = 1 + sizeOf x) {o : Option α} (h : sizeOf o < n) :
    Below n (o.toList.map make) := by
  cases o with
  | none => exact nil
  | some x => exact single (by simpa [hmake] using h)

theorem flatMap {make : α → List Piece} (hmake : ∀ x, Below (1 + sizeOf x) (make x)) {xs : List α}
    (h : sizeOf xs < n) : Below n (xs.flatMap make) := by
  intro p hp
  obtain ⟨x, hx, hp⟩ := List.mem_flatMap.mp hp
  have := List.sizeOf_lt_of_mem hx
  have := hmake x p hp
  omega

theorem mono {m : Nat} (h : Below m ps) (hm : m ≤ n) : Below n ps := fun p hp => Nat.lt_of_lt_of_le (h p hp) hm

theorem ofType (kind : TypeKind) : Below (2 + sizeOf kind) (ofType kind) := by
  cases kind with
  | keyword | literal | error => exact nil
  | array => exact single (by simp)
  | reference => exact append (map (fun _ => rfl) (by simp; omega)) (map (fun _ => rfl) (by simp; omega))
  | function => exact append (map (fun _ => rfl) (by simp; omega)) (single (by simp; omega))
  | union | intersection | tuple | object | typeof => exact map (fun _ => rfl) (by simp; omega)

theorem ofBody (body : FunctionBody) : Below (1 + sizeOf body) (ofBody body) := by
  cases body <;> exact single (by simp)

theorem ofExpr (kind : ExprKind) : Below (2 + sizeOf kind) (ofExpr kind) := by
  cases kind with
  | object | array => exact map (fun _ => rfl) (by simp; omega)
  | member | index | assign | binary | cast => exact cons (by simp; omega) (single (by simp; omega))
  | call | new => exact cons (by simp; omega) (map (fun _ => rfl) (by simp; omega))
  | unary => exact single (by simp; omega)
  | conditional => exact cons (by simp; omega) (cons (by simp; omega) (single (by simp; omega)))
  | function params returnType body =>
    exact append (append (map (fun _ => rfl) (by simp; omega)) (option (fun _ => rfl) (by simp; omega)))
      ((ofBody body).mono (by simp; omega))
  | _ => exact nil

theorem ofImport (s : ImportSpecifier) : Below (1 + sizeOf s) (ofImport s) := by
  cases s
  exact cons (by simp; omega) (option (fun _ => rfl) (by simp; omega))

theorem ofExport (s : ExportSpecifier) : Below (1 + sizeOf s) (ofExport s) := by
  cases s
  exact cons (by simp; omega) (option (fun _ => rfl) (by simp; omega))

theorem ofExportKind (kind : ExportKind) : Below (2 + sizeOf kind) (ofExportKind kind) := by
  cases kind with
  | named => exact append (flatMap ofExport (by simp; omega)) (option (fun _ => rfl) (by simp; omega))
  | star => exact append (option (fun _ => rfl) (by simp; omega)) (single (by simp; omega))
  | default | assignment => exact single (by simp)

theorem ofStatement (s : Statement) : Below (1 + sizeOf s) (ofStatement s) := by
  cases s with
  | importDecl d =>
    obtain ⟨default, star, named, source, typeOnly, span⟩ := d
    refine append (append ?_ (flatMap ofImport (by simp; omega))) (single (by simp; omega))
    rw [List.map_append]
    exact append (option (fun _ => rfl) (by simp; omega)) (option (fun _ => rfl) (by simp; omega))
  | importEquals d =>
    cases d
    exact cons (by simp; omega) (single (by simp; omega))
  | exportDecl d =>
    cases d
    exact (ofExportKind _).mono (by simp; omega)
  | variableDecl d =>
    cases d
    exact cons (by simp; omega) (map (fun _ => rfl) (by simp; omega))
  | function d =>
    cases d
    refine append (append (append (append ?_ ?_) ?_) ?_) ?_
    · exact option (fun _ => rfl) (by simp; omega)
    · exact map (fun _ => rfl) (by simp; omega)
    · exact map (fun _ => rfl) (by simp; omega)
    · exact option (fun _ => rfl) (by simp; omega)
    · exact option (fun _ => rfl) (by simp; omega)
  | interface d =>
    cases d
    exact cons (by simp; omega) (append (append (map (fun _ => rfl) (by simp; omega)) (map (fun _ => rfl) (by simp; omega)))
      (map (fun _ => rfl) (by simp; omega)))
  | typeAlias d =>
    cases d
    exact cons (by simp; omega) (append (map (fun _ => rfl) (by simp; omega)) (single (by simp; omega)))
  | moduleDecl d =>
    obtain ⟨modifiers, name, body, span⟩ := d
    refine cons ?_ ?_
    · cases name <;> simp [ofModuleName] <;> omega
    · cases body with
      | none => exact nil
      | some body => exact map (fun _ => rfl) (by simp; omega)
  | ifElse s =>
    cases s
    exact append (cons (by simp; omega) (single (by simp; omega))) (option (fun _ => rfl) (by simp; omega))
  | block | expression => exact single (by simp)
  | ret s =>
    cases s
    exact option (fun _ => rfl) (by simp; omega)
  | empty | error => exact nil

end Below

theorem sizeOf_parts (p : Piece) : Below (sizeOf p) p.parts := by
  cases p with
  | module m =>
    cases m
    exact .map (fun _ => rfl) (by simp; omega)
  | statement s => exact .ofStatement s
  | declarator d =>
    cases d
    exact .append (.cons (by simp; omega) (.option (fun _ => rfl) (by simp; omega)))
      (.option (fun _ => rfl) (by simp; omega))
  | param q =>
    cases q
    exact .append (.cons (by simp; omega) (.option (fun _ => rfl) (by simp; omega)))
      (.option (fun _ => rfl) (by simp; omega))
  | member m =>
    cases m
    exact .cons (by simp; omega) (.option (fun _ => rfl) (by simp; omega))
  | block b =>
    cases b
    exact .map (fun _ => rfl) (by simp; omega)
  | property q =>
    cases q
    exact .cons (by simp; omega) (.single (by simp; omega))
  | expr e =>
    cases e
    exact (Below.ofExpr _).mono (by simp; omega)
  | type t =>
    cases t
    exact (Below.ofType _).mono (by simp; omega)
  | ident | literal | word => exact .nil

/-- What holds of a piece as soon as it holds of its parts holds of every piece. -/
theorem induct {motive : Piece → Prop} (step : ∀ p, (∀ q ∈ p.parts, motive q) → motive p) (p : Piece) : motive p :=
  step p fun q hq =>
    have : sizeOf q < sizeOf p := p.sizeOf_parts q hq
    induct step q
termination_by sizeOf p

/-- A property of a piece and of all that is inside it. -/
def Everywhere (motive : Piece → Prop) (p : Piece) : Prop := ∀ q, p.Contains q → motive q

namespace Everywhere

variable {motive : Piece → Prop} {p q : Piece}

theorem self (h : p.Everywhere motive) : motive p := h p (.self p)

theorem part (h : p.Everywhere motive) (hq : q ∈ p.parts) : q.Everywhere motive := fun r hr => h r (.part hq hr)

end Everywhere

theorem everywhere_iff {motive : Piece → Prop} {p : Piece} :
    p.Everywhere motive ↔ motive p ∧ p.parts.Forall (Everywhere motive) := by
  rw [List.forall_iff_forall_mem]
  refine ⟨fun h => ⟨h.self, fun q hq => h.part hq⟩, fun ⟨hself, hparts⟩ q hq => ?_⟩
  cases hq with
  | self => exact hself
  | part hr hq => exact hparts _ hr q hq

/-! ## Addresses -/

/-- The way from a piece down into it: which part to enter, and which part of that part. -/
abbrev Address := List Nat

/-- The piece at an address. -/
def at? : Piece → Address → Option Piece
  | p, [] => some p
  | p, i :: rest => p.parts[i]?.bind (·.at? rest)

/-- The pieces that are at some address are those that the piece contains. -/
theorem contains_iff_at? {p q : Piece} : p.Contains q ↔ ∃ a, p.at? a = some q := by
  constructor
  · intro h
    induction h with
    | self p => exact ⟨[], rfl⟩
    | part hpart _ ih =>
      obtain ⟨a, ha⟩ := ih
      obtain ⟨i, hi⟩ := List.mem_iff_getElem?.mp hpart
      exact ⟨i :: a, by rw [at?, hi, Option.bind_some, ha]⟩
  · rintro ⟨a, ha⟩
    induction a generalizing p with
    | nil =>
      cases ha
      exact .self _
    | cons i rest ih =>
      obtain ⟨r, hr, hrest⟩ := Option.bind_eq_some_iff.mp ha
      exact .part (List.mem_of_getElem? hr) (ih hrest)

/-! ## What is found in a piece -/

variable {α : Type} {root p : Piece} {select : Piece → Option α} {xs ys : List α}

/-- What is found at an address. -/
def find? (select : Piece → Option α) (root : Piece) (a : Address) : Option α := (root.at? a).bind select

/-- The list holds what is found in a piece, once for each address at which something is found. -/
def Lists (select : Piece → Option α) (root : Piece) (xs : List α) : Prop :=
  ∃ places : List Address, places.Nodup ∧ (∀ a, a ∈ places ↔ (root.find? select a).isSome) ∧
    List.Forall₂ (fun a x => root.find? select a = some x) places xs

/-! ### Along the parts -/

/-- The addresses that lead into the pieces of a list, where `n` is the index of the first one. -/
def into (places : Piece → List Address) : Nat → List Piece → List Address
  | _, [] => []
  | n, q :: qs => (places q).map (n :: ·) ++ into places (n + 1) qs

variable {places : Piece → List Address} {n : Nat} {qs : List Piece} {a : Address}

theorem mem_into :
    a ∈ into places n qs ↔ ∃ i rest q, qs[i]? = some q ∧ rest ∈ places q ∧ a = (n + i) :: rest := by
  induction qs generalizing n with
  | nil => simp [into]
  | cons q qs ih =>
    rw [into, List.mem_append, ih, List.mem_map]
    constructor
    · rintro (⟨rest, hrest, rfl⟩ | ⟨i, rest, r, hr, hrest, rfl⟩)
      · exact ⟨0, rest, q, rfl, hrest, rfl⟩
      · exact ⟨i + 1, rest, r, hr, hrest, by rw [Nat.add_right_comm, Nat.add_assoc]⟩
    · rintro ⟨i, rest, r, hr, hrest, rfl⟩
      cases i with
      | zero =>
        obtain rfl : q = r := Option.some.inj hr
        exact .inl ⟨rest, hrest, rfl⟩
      | succ i => exact .inr ⟨i, rest, r, hr, hrest, by rw [Nat.add_right_comm, Nat.add_assoc]⟩

theorem nodup_into (h : ∀ q ∈ qs, (places q).Nodup) : (into places n qs).Nodup := by
  induction qs generalizing n with
  | nil => exact List.nodup_nil
  | cons q qs ih =>
    obtain ⟨hq, hqs⟩ := List.forall_mem_cons.mp h
    refine (hq.map fun _ _ => List.tail_eq_of_cons_eq).append (ih hqs) fun a hfirst hlater => ?_
    obtain ⟨rest, -, rfl⟩ := List.mem_map.mp hfirst
    obtain ⟨i, rest', r, -, -, heq⟩ := mem_into.mp hlater
    have := (List.cons.inj heq).1
    omega

theorem forall₂_into {R : Address → α → Prop} {found : Piece → List α}
    (h : ∀ i q, qs[i]? = some q → List.Forall₂ (fun rest x => R ((n + i) :: rest) x) (places q) (found q)) :
    List.Forall₂ R (into places n qs) (qs.flatMap found) := by
  induction qs generalizing n with
  | nil => exact .nil
  | cons q qs ih =>
    rw [into, List.flatMap_cons]
    refine List.rel_append (List.forall₂_map_left_iff.mpr (h 0 q rfl)) (ih fun i r hr => ?_)
    have := h (i + 1) r hr
    rwa [show n + (i + 1) = n + 1 + i by omega] at this

namespace Lists

/-- The order of the list does not matter. -/
theorem perm (h : Lists select root xs) (hperm : xs.Perm ys) : Lists select root ys := by
  obtain ⟨places, hnodup, hmem, hall⟩ := h
  obtain ⟨places', hplaces, hall'⟩ :
      Relation.Comp List.Perm (List.Forall₂ fun a x => root.find? select a = some x) places ys := by
    rw [← List.forall₂_comp_perm_eq_perm_comp_forall₂]
    exact ⟨xs, hall, hperm⟩
  exact ⟨places', hplaces.nodup hnodup, fun a => by rw [← hplaces.mem_iff, hmem], hall'⟩

/-- What is found in a piece is what is found at its top and in each of its parts. -/
theorem parts {found : Piece → List α} (h : ∀ q ∈ root.parts, Lists select q (found q)) :
    Lists select root ((select root).toList ++ root.parts.flatMap found) := by
  choose! places hnodup hmem hall using h
  have hdown (i : Nat) (rest : Address) :
      root.find? select (i :: rest) = root.parts[i]?.bind (·.find? select rest) := by
    rw [find?, at?]
    cases root.parts[i]? <;> rfl
  have htop (a : Address) :
      a ∈ ((select root).toList.map fun _ => ([] : Address)) ↔ a = [] ∧ (select root).isSome := by
    cases select root <;> simp
  refine ⟨((select root).toList.map fun _ => []) ++ into places 0 root.parts, ?_, fun a => ?_, ?_⟩
  · refine List.Nodup.append ?_ (nodup_into hnodup) fun a ha hinto => ?_
    · cases select root <;> simp
    · obtain ⟨i, rest, q, -, -, rfl⟩ := mem_into.mp hinto
      exact absurd ((htop _).mp ha).1 nofun
  · rw [List.mem_append, htop, mem_into]
    cases a with
    | nil => simp [find?, at?]
    | cons i rest =>
      rw [hdown]
      constructor
      · rintro (⟨hnil, -⟩ | ⟨j, rest', q, hq, hrest, heq⟩)
        · exact absurd hnil nofun
        · obtain ⟨rfl, rfl⟩ : i = j ∧ rest = rest' := by simpa using heq
          rw [hq]
          exact (hmem q (List.mem_of_getElem? hq) rest).mp hrest
      · intro h
        cases hq : root.parts[i]? with
        | none => simp [hq] at h
        | some q =>
          rw [hq] at h
          exact .inr ⟨i, rest, q, hq, (hmem q (List.mem_of_getElem? hq) rest).mpr h, by rw [Nat.zero_add]⟩
  · refine List.rel_append ?_ (forall₂_into fun i q hq => ?_)
    · cases htop : select root with
      | none => exact .nil
      | some x => exact .cons htop .nil
    · refine (hall q (List.mem_of_getElem? hq)).imp fun rest x hx => ?_
      rw [Nat.zero_add, hdown, hq]
      exact hx

end Lists

end Piece

end Recheck.Syntax
