import MathTree.Proofs.Render.ExponentOne

/-!
# What operators insert for their operands

An operator of arithmetic writes its operands in a row, each with brackets or without, and a sign
between them (`Renderer.Joins`).  What stands for an operand in that row is its `insertion`.
-/

namespace MathTree

/-- Whether a kind is that of an operator of arithmetic between operands, or before one. -/
def Kind.isArithmetic : Kind → Bool
  | .plus | .minus | .times | .divide => true
  | _ => false

/-! ### Rows -/

theorem mapM_zipIdx {α β : Type} {f : α → Nat → Except Fault β} {g : α → Except Fault β} {k : Nat}
    (h : ∀ x i, k ≤ i → f x i = g x) (xs : List α) :
    (xs.zipIdx k).mapM (fun p => f p.1 p.2) = xs.mapM g := by
  induction xs generalizing k with
  | nil => rfl
  | cons x xs ih =>
    rw [List.zipIdx_cons, List.mapM_cons, List.mapM_cons, h x k (Nat.le_refl k),
      ih fun y i hi => h y i (Nat.le_of_succ_le hi)]

/-- A row has at each place what was made for that place. -/
theorem exists_getElem?_of_mapM_zipIdx {α β : Type} {f : α → Nat → Except Fault β} {xs : List α}
    {ys : List β} {i k : Nat} {x : α} (h : (xs.zipIdx k).mapM (fun p => f p.1 p.2) = .ok ys)
    (hx : xs[i]? = some x) : ∃ y, f x (k + i) = .ok y ∧ ys[i]? = some y := by
  induction xs generalizing i k ys with
  | nil => cases hx
  | cons x' xs ih =>
    rw [List.zipIdx_cons, List.mapM_cons] at h
    obtain ⟨y, hy, hrest⟩ := exists_of_bind_eq_ok h
    obtain ⟨ys', hys', heq⟩ := exists_of_bind_eq_ok hrest
    cases heq
    cases i with
    | zero =>
      cases hx
      exact ⟨y, hy, rfl⟩
    | succ i =>
      obtain ⟨z, hz, hget⟩ := ih hys' hx
      exact ⟨z, by rw [← hz, Nat.add_assoc, Nat.add_comm 1], hget⟩

theorem intercalate_cons (sign a : String) (l : List String) :
    sign.intercalate (a :: l) = a ++ String.join (l.map (sign ++ ·)) := by
  induction l generalizing a with
  | nil => simp
  | cons b l ih =>
    rw [String.intercalate_cons_cons, ih, List.map_cons, String.join_cons, String.append_assoc,
      String.append_assoc]

/-! ### Insertions -/

namespace Renderer

section

variable (R : Renderer Rendition) (brackets : String → String) (above below : Tree → Bool)

/-- What an operator inserts for the operand in a place. -/
def insertion (h : Head) (place : Nat) (u : Tree) : Rendition :=
  Term.enclosedIf brackets (encloses above below h place u) <$> u.render R

/-- What an operator inserts for each of its operands. -/
def insertions (h : Head) (us : List Tree) : Except Fault (List String) :=
  us.zipIdx.mapM fun p => R.insertion brackets above below h p.2 p.1

/-- How an operator puts what it inserts in a row: as a sum, a difference or a negation, or in the
notation's way of writing a product or a quotient. -/
def joined (joinFactors joinParts : List String → String) (h : Head) : List String → String :=
  match h.kind with
  | .plus => "+".intercalate
  | .minus => if h.form = .unary then fun texts => "-" ++ String.join texts else "-".intercalate
  | .times => joinFactors
  | _ => joinParts

end

variable {R : Renderer Rendition} {brackets : String → String} {above below : Tree → Bool}

theorem chain_eq (sign : String) (us : List Tree) (inserted : Tree → Nat → Rendition)
    (hfirst : ∀ u, inserted u 0 = u.render R)
    (hothers : ∀ u i, 1 ≤ i → inserted u i = (Term.operand brackets ∘ Tree.operand R) u) :
    Term.chain brackets sign (us.map (Tree.operand R))
      = sign.intercalate <$> us.zipIdx.mapM fun p => inserted p.1 p.2 := by
  cases us with
  | nil => rfl
  | cons u us =>
    have hresult : (u.operand R).result = u.render R := rfl
    rw [List.map_cons, Term.chain, hresult, List.mapM_map, List.zipIdx_cons, List.mapM_cons, hfirst,
      mapM_zipIdx hothers]
    cases u.render R with
    | error => rfl
    | ok first =>
      cases us.mapM (Term.operand brackets ∘ Tree.operand R) with
      | error => rfl
      | ok others => exact congrArg Except.ok (intercalate_cons sign first others).symm

/-- The two operands of a quotient, each with or without brackets. -/
theorem insertions_pair (h : Head) (x y : Tree) :
    R.insertions brackets above below h [x, y] = do
      let a ← R.insertion brackets above below h 0 x
      let b ← R.insertion brackets above below h 1 y
      return [a, b] := by
  simp [insertions]

/-- The row has at each place what is inserted there. -/
theorem getElem?_insertions {h : Head} {us : List Tree} {texts : List String} {i : Nat} {u : Tree}
    (htexts : R.insertions brackets above below h us = .ok texts) (hu : us[i]? = some u) :
    ∃ s, R.insertion brackets above below h i u = .ok s ∧ texts[i]? = some s := by
  have hrow := exists_getElem?_of_mapM_zipIdx (f := fun u i => R.insertion brackets above below h i u)
    (k := 0) htexts hu
  rwa [Nat.zero_add] at hrow

/-- Only what can be read is written. -/
theorem Brackets.exists_reading (hR : R.Brackets brackets above below) {t : Tree} {text : String}
    (h : t.render R = .ok text) : ∃ r, t.reading? = .ok r := by
  cases hr : t.reading? with
  | ok r => exact ⟨r, rfl⟩
  | error fault =>
    rw [Tree.render_of_error R hr, hR.refuse] at h
    cases h

/-- How a notation puts what it inserts in a row, its own way for products and for quotients. -/
structure Joins (R : Renderer Rendition) (brackets : String → String) (above below : Tree → Bool)
    (joinFactors joinParts : List String → String) : Prop extends R.Brackets brackets above below where
  joins_factors : ∀ xs, R.form (.product xs) = joinFactors <$> xs.mapM (Term.operand brackets)
  joins_parts : ∀ x y : Term, R.form (.quotient x y) = do
    let a ← Term.enclosedIf brackets (above x.tree) <$> x.result
    let b ← Term.enclosedIf brackets (below y.tree) <$> y.result
    return joinParts [a, b]

namespace Joins

variable {joinFactors joinParts : List String → String}
  (hR : R.Joins brackets above below joinFactors joinParts) {t : Tree} {r : Reading Tree}
  (hr : t.reading? = .ok r)
include hR hr

theorem render_sum (hk : t.kind = .plus) :
    t.render R = "+".intercalate <$> R.insertions brackets above below t.head r.operands := by
  have hkind : t.head.kind = .plus := hk
  rw [Tree.render_of_ok R hr]
  simp only [Tree.reading?, Head.reading?, Tree.itself_shown, hkind] at hr
  cases hr
  rw [Reading.map, hR.sum]
  refine chain_eq "+" t.shown (fun u i => R.insertion brackets above below t.head i u)
    (fun u => ?_) fun u i hi => ?_
  · simp only [insertion, encloses, hkind]
    cases u.render R <;> rfl
  · have hplace : decide (i ≠ 0) = true := decide_eq_true (Nat.ne_of_gt hi)
    simp only [insertion, encloses, hkind, hplace, Bool.true_and]
    rfl

theorem render_difference (hk : t.kind = .minus) (hform : t.head.form ≠ .unary) :
    t.render R = "-".intercalate <$> R.insertions brackets above below t.head r.operands := by
  have hkind : t.head.kind = .minus := hk
  rw [Tree.render_of_ok R hr]
  simp only [Tree.reading?, Head.reading?, Tree.itself_shown, hkind, if_neg hform] at hr
  obtain ⟨⟨x, y⟩, -, rfl⟩ := exists_of_map_eq_ok hr
  rw [Reading.map, hR.difference]
  refine chain_eq "-" [x, y] (fun u i => R.insertion brackets above below t.head i u)
    (fun u => ?_) fun u i hi => ?_
  · simp only [insertion, encloses, hkind, hform]
    cases u.render R <;> rfl
  · have hplace : decide (i ≠ 0) = true := decide_eq_true (Nat.ne_of_gt hi)
    simp only [insertion, encloses, hkind, hplace, Bool.or_true, Bool.true_and]
    rfl

theorem render_negation (hk : t.kind = .minus) (hform : t.head.form = .unary) :
    t.render R
      = (fun texts => "-" ++ String.join texts) <$>
        R.insertions brackets above below t.head r.operands := by
  have hkind : t.head.kind = .minus := hk
  rw [Tree.render_of_ok R hr]
  simp only [Tree.reading?, Head.reading?, Tree.itself_shown, hkind, if_pos hform] at hr
  obtain ⟨x, -, rfl⟩ := exists_of_map_eq_ok hr
  have hinserted : R.insertion brackets above below t.head 0 x
      = Term.operand brackets (x.operand R) := by
    simp only [insertion, encloses, hkind, hform, decide_true, Bool.true_or, Bool.true_and]
    rfl
  rw [Reading.map, hR.negation, insertions, Reading.operands, List.zipIdx_singleton, List.mapM_cons,
    hinserted]
  cases Term.operand brackets (x.operand R) with
  | error => rfl
  | ok text =>
    have hjoin : String.join [text] = text := by simp
    exact congrArg (fun s => Except.ok ("-" ++ s)) hjoin.symm

theorem render_product (hk : t.kind = .times) :
    t.render R = joinFactors <$> R.insertions brackets above below t.head r.operands := by
  have hkind : t.head.kind = .times := hk
  rw [Tree.render_of_ok R hr]
  simp only [Tree.reading?, Head.reading?, Tree.itself_shown, hkind] at hr
  cases hr
  rw [Reading.map, hR.joins_factors, List.mapM_map]
  have hinserted (u : Tree) (i : Nat) : R.insertion brackets above below t.head i u
      = (Term.operand brackets ∘ Tree.operand R) u := by
    simp only [insertion, encloses, hkind]
    rfl
  exact congrArg (joinFactors <$> ·) (mapM_zipIdx (fun u i (_ : 0 ≤ i) => hinserted u i) t.shown).symm

theorem render_quotient (hk : t.kind = .divide) :
    t.render R = joinParts <$> R.insertions brackets above below t.head r.operands := by
  have hkind : t.head.kind = .divide := hk
  rw [Tree.render_of_ok R hr]
  simp only [Tree.reading?, Head.reading?, Tree.itself_shown, hkind] at hr
  obtain ⟨⟨x, y⟩, -, rfl⟩ := exists_of_map_eq_ok hr
  have habove : R.insertion brackets above below t.head 0 x
      = Term.enclosedIf brackets (above x) <$> x.render R := by
    simp only [insertion, encloses, hkind, if_true]
  have hbelow : R.insertion brackets above below t.head 1 y
      = Term.enclosedIf brackets (below y) <$> y.render R := by
    simp only [insertion, encloses, hkind, Nat.one_ne_zero, if_false]
  rw [Reading.map, hR.joins_parts, Reading.operands, insertions_pair, habove, hbelow]
  change (do
    let a ← Term.enclosedIf brackets (above x) <$> x.render R
    let b ← Term.enclosedIf brackets (below y) <$> y.render R
    return joinParts [a, b]) = _
  cases x.render R with
  | error => rfl
  | ok => cases y.render R <;> rfl

/-- An operator of arithmetic is written as what it inserts for its operands, in a row. -/
theorem render_eq (hk : t.kind.isArithmetic) : t.render R
    = joined joinFactors joinParts t.head
        <$> R.insertions brackets above below t.head r.operands := by
  have hhead : t.head.kind = t.kind := rfl
  cases hkind : t.kind with
  | plus =>
    rw [hR.render_sum hr hkind]
    simp only [joined, hhead, hkind]
  | minus =>
    by_cases hform : t.head.form = .unary
    · rw [hR.render_negation hr hkind hform]
      simp only [joined, hhead, hkind, if_pos hform]
    · rw [hR.render_difference hr hkind hform]
      simp only [joined, hhead, hkind, if_neg hform]
  | times =>
    rw [hR.render_product hr hkind]
    simp only [joined, hhead, hkind]
  | divide =>
    rw [hR.render_quotient hr hkind]
    simp only [joined, hhead, hkind]
  | _ =>
    rw [hkind] at hk
    cases hk

end Joins

end Renderer

namespace Formula

/-- The factors that are not written as nothing, with a sign between them. -/
def joinFactors (texts : List String) : String := "*".intercalate (texts.filter (· ≠ ""))

/-- What a formula has for an operand in a place. -/
abbrev insertion (style : Style) (h : Head) (place : Nat) (u : Tree) : Rendition :=
  (renderer style).insertion brackets Tree.isLoose isCompound h place u

/-- What a formula has for each of some operands. -/
abbrev insertions (style : Style) (h : Head) (us : List Tree) : Except Fault (List String) :=
  (renderer style).insertions brackets Tree.isLoose isCompound h us

/-- How a formula puts them in a row. -/
abbrev joined (h : Head) (texts : List String) : String :=
  Renderer.joined joinFactors "/".intercalate h texts

theorem joins_renderer (style : Style) : (renderer style).Joins brackets Tree.isLoose isCompound
    joinFactors "/".intercalate where
  toBrackets := brackets_renderer style
  joins_factors _ := (map_eq_pure_bind _ _).symm
  joins_parts x y := by
    change (do
      let a ← Term.enclosedIf brackets x.tree.isLoose <$> x.result
      let b ← Term.enclosedIf brackets (isCompound y.tree) <$> y.result
      return a ++ "/" ++ b) = _
    have hjoin (a b : String) : "/".intercalate [a, b] = a ++ "/" ++ b := by
      simp [intercalate_cons, String.append_assoc]
    cases x.result with
    | error => rfl
    | ok =>
      cases y.result with
      | error => rfl
      | ok => exact congrArg Except.ok (hjoin ..).symm

end Formula

namespace Latex

/-- The parts of a fraction, one above the other. -/
def joinParts (texts : List String) : String := "\\frac" ++ String.join (texts.map group)

/-- What LaTeX has for an operand in a place. -/
abbrev insertion (style : Style) (h : Head) (place : Nat) (u : Tree) : Rendition :=
  (renderer style).insertion brackets (fun _ => false) (fun _ => false) h place u

/-- What LaTeX has for each of some operands. -/
abbrev insertions (style : Style) (h : Head) (us : List Tree) : Except Fault (List String) :=
  (renderer style).insertions brackets (fun _ => false) (fun _ => false) h us

/-- How LaTeX puts them in a row. -/
abbrev joined (h : Head) (texts : List String) : String :=
  Renderer.joined "\\cdot ".intercalate joinParts h texts

theorem joins_renderer (style : Style) : (renderer style).Joins brackets (fun _ => false)
    (fun _ => false) "\\cdot ".intercalate joinParts where
  toBrackets := brackets_renderer style
  joins_factors _ := rfl
  joins_parts x y := by
    change (do
      let a ← x.result
      let b ← y.result
      return "\\frac" ++ group a ++ group b) = _
    have hjoin (a b : String) : joinParts [a, b] = "\\frac" ++ group a ++ group b := by
      simp [joinParts, String.append_assoc]
    cases x.result with
    | error => rfl
    | ok =>
      cases y.result with
      | error => rfl
      | ok => exact congrArg Except.ok (hjoin ..).symm

end Latex

end MathTree
