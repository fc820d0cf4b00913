import MathTree.Proofs.Number.Sign
import MathTree.Proofs.Render.Acceptance
import MathTree.Proofs.Render.Insertions

/-!
# What texts start with

What a node is written as starts with a sign of its own or with the text of an operand, and a notation
whose nodes are known in this respect (`Renderer.Fronts`) writes a tree with a minus sign in front just
if the tree is `Tree.Led` by one.  That is told of a tree whose names are like words (`Tree.IsFirm`).
-/

namespace MathTree

open MathTree.Number

/-! ### What texts start with -/

/-- What the text of a node starts with. -/
inductive Front where
  /-- A minus sign of its own. -/
  | minus
  /-- What an operand is written as. -/
  | operand (x : Tree)
  | other

namespace Front

/-- A minus sign under a condition, and else another sign. -/
def ofSign (negative : Prop) [Decidable negative] : Front := if negative then .minus else .other

/-- An operand, unless it is bracketed. -/
def bare (bracketed : Bool) (x : Tree) : Front := if bracketed then .other else .operand x

/-- The first of some operands, unless it is bracketed. -/
def first (bracketed : Tree → Bool) : List Tree → Front
  | [] => .other
  | x :: _ => bare (bracketed x) x

/-- Whether a text starts so, as far as minus signs are concerned. -/
def Starts (R : Renderer Rendition) (text : String) : Front → Prop
  | .minus => StartsWithMinus text
  | .operand x => ∃ s, x.render R = .ok s ∧ (StartsWithMinus text ↔ StartsWithMinus s)
  | .other => ¬ StartsWithMinus text

variable {R : Renderer Rendition} {x : Tree} {text s : String}

theorem ofSign_eq_minus {negative : Prop} [Decidable negative] :
    ofSign negative = .minus ↔ negative := by
  unfold ofSign
  split_ifs with h
  · exact iff_of_true rfl h
  · exact iff_of_false nofun h

theorem ofSign_ne_operand {negative : Prop} [Decidable negative] : ofSign negative ≠ .operand x := by
  unfold ofSign
  split_ifs <;> exact nofun

theorem starts_ofSign {negative : Prop} [Decidable negative]
    (h : StartsWithMinus text ↔ negative) : (ofSign negative).Starts R text := by
  unfold ofSign
  split_ifs with hn
  · exact h.2 hn
  · exact fun hminus => hn (h.1 hminus)

theorem starts_bare {brackets : String → String} (hb : ∀ s, ¬ StartsWithMinus (brackets s))
    (hx : x.render R = .ok s) {bracketed : Bool}
    (h : StartsWithMinus text ↔ StartsWithMinus (Term.enclosedIf brackets bracketed s)) :
    (bare bracketed x).Starts R text := by
  cases bracketed with
  | true => exact fun hminus => hb s (h.1 hminus)
  | false => exact ⟨s, hx, h⟩

theorem bare_eq_operand {bracketed : Bool} {y : Tree} (h : bare bracketed x = .operand y) :
    y = x := by
  cases bracketed <;> cases h
  rfl

theorem mem_of_first {bracketed : Tree → Bool} {xs : List Tree}
    (h : first bracketed xs = .operand x) : x ∈ xs := by
  cases xs with
  | nil => cases h
  | cons y xs =>
    rw [bare_eq_operand h]
    exact List.mem_cons_self

end Front

/-- Whether the text of a tree starts with a minus sign, where it is known what nodes start with: with a
sign of their own, or with an operand that starts with one. -/
inductive Tree.Led (front : Reading Tree → Front) : Tree → Prop
  | own {t : Tree} {r : Reading Tree} (hr : t.reading? = .ok r) (h : front r = .minus) : Led front t
  | operand {t x : Tree} {r : Reading Tree} (hr : t.reading? = .ok r) (h : front r = .operand x)
      (hx : Led front x) : Led front t

/-! ### Names -/

/-- Whether a name does not start with a minus sign and not with a blank.  No name that starts with a
letter does. -/
def IsFirmName (name : String) : Prop := ∀ c ∈ name.toList.head?, c ≠ '-' ∧ ¬ Text.isBlank c

theorem isFirmName_of_cons {name : String} {c : Char} {l : List Char} (h : name.toList = c :: l)
    (hc : c ≠ '-') (hblank : ¬ Text.isBlank c) : IsFirmName name := by
  intro d hd
  rw [h] at hd
  cases hd
  exact ⟨hc, hblank⟩

/-- The name in a reading, if there is one. -/
def Reading.names {α : Type} : Reading α → List String
  | .delay name .. | .avogadro name | .time name | .identifier name | .call name _ => [name]
  | _ => []

theorem IsFirmName.not_startsWithMinus {name : String} (h : IsFirmName name) :
    ¬ StartsWithMinus name := fun hminus => (h '-' hminus).1 rfl

/-- The name in what a node means is the name of the node. -/
theorem Head.name_of_mem_names {α : Type} {h : Head} {isTwo : α → Bool} {slots : List (Slot α)}
    {r : Reading α} {name : String} (hr : h.reading? isTwo slots = .ok r) (hn : name ∈ r.names) :
    h.name = .ok name := by
  cases hk : h.kind with
  | plus | times | connective | lambda | piecewise | constant | unknown =>
    simp only [reading?, hk] at hr
    cases hr
    cases hn
  | divide | power | relation | log | not | elementary | qualifier =>
    simp only [reading?, hk] at hr
    obtain ⟨_, -, rfl⟩ := exists_of_map_eq_ok hr
    cases hn
  | minus =>
    simp only [reading?, hk] at hr
    split_ifs at hr
    all_goals
      obtain ⟨_, -, rfl⟩ := exists_of_map_eq_ok hr
      cases hn
  | root =>
    simp only [reading?, hk] at hr
    obtain ⟨_, -, rfl⟩ := exists_of_map_eq_ok hr
    unfold rootReading at hn
    split_ifs at hn <;> cases hn
  | delay =>
    simp only [reading?, hk] at hr
    obtain ⟨_, -, hr⟩ := exists_of_bind_eq_ok hr
    obtain ⟨_, hname, hr⟩ := exists_of_bind_eq_ok hr
    cases hr
    rw [List.mem_singleton.1 hn]
    exact hname
  | name | time | avogadro | call =>
    simp only [reading?, hk] at hr
    obtain ⟨_, hname, rfl⟩ := exists_of_map_eq_ok hr
    rw [List.mem_singleton.1 hn]
    exact hname
  | integer =>
    simp only [reading?, hk] at hr
    obtain ⟨_, -, hr⟩ := exists_of_bind_eq_ok hr
    cases hr
    cases hn
  | real =>
    simp only [reading?, hk] at hr
    split at hr
    all_goals
      cases hr
      cases hn
  | rational | exponential =>
    simp only [reading?, hk] at hr
    obtain ⟨_, -, hr⟩ := exists_of_bind_eq_ok hr
    obtain ⟨_, -, hr⟩ := exists_of_bind_eq_ok hr
    cases hr
    cases hn

/-- Whether all names of a tree are such that no text starts with a minus sign for them. -/
def Tree.IsFirm (t : Tree) : Prop := t.All fun u => ∀ name, u.head.name = .ok name → IsFirmName name

/-! ### Notations -/

/-- A real literal below zero is set, and bracketed. -/
theorem Tree.isLoose_of_isNegative {t : Tree} (hk : t.kind = .real)
    (h : t.head.storedReal.isNegative) : t.isLoose := by
  unfold isLoose
  rw [hk]
  unfold Head.storedReal at h
  cases hx : t.head.payload.real? with
  | none =>
    rw [hx] at h
    exact absurd h (by decide)
  | some x =>
    rw [hx] at h
    have hset : Head.setReal x = some x := by
      refine if_neg fun hnan => ?_
      have hvalue : x.value = .nan := eq_of_beq hnan
      rw [Option.getD_some, Binary64.isNegative, hvalue] at h
      cases h
    have hreal : t.head.real = .ok x := by
      rw [Head.real, hx, Option.map_some, hset]
      rfl
    rw [hreal]
    exact h

/-- What nodes start with in a notation. -/
structure Renderer.Fronts (R : Renderer Rendition) (brackets : String → String)
    (front : Reading Tree → Front) : Prop where
  refuse : R.refuse = .error
  not_brackets : ∀ s, ¬ StartsWithMinus (brackets s)
  mem_operands : ∀ r x, front r = .operand x → x ∈ r.operands
  real : ∀ value units, front (.real value units) = .ofSign (StartsWithMinus value.realText)
  infinity : ∀ negative, front (.infinity negative) = .ofSign negative
  starts : ∀ (r : Reading Tree) (text : String), (∀ name ∈ r.names, IsFirmName name) →
    R.form (r.map (Tree.operand R)) = .ok text → (front r).Starts R text

namespace Renderer.Fronts

variable {R : Renderer Rendition} {brackets : String → String} {front : Reading Tree → Front}
  (hR : R.Fronts brackets front) {t : Tree}
include hR

/-- The text of a tree starts with a minus sign if this can be told from the tree. -/
theorem startsWithMinus_iff {text : String} (hfirm : t.IsFirm) (h : t.render R = .ok text) :
    StartsWithMinus text ↔ t.Led front := by
  induction t using Tree.reading_induction generalizing text with
  | step t ih =>
    cases hr : t.reading? with
    | error fault =>
      rw [Tree.render_of_error R hr, hR.refuse] at h
      cases h
    | ok r =>
      have hnames : ∀ name ∈ r.names, IsFirmName name := by
        obtain ⟨top, -⟩ := hfirm
        exact fun name hname => top name (Head.name_of_mem_names hr hname)
      rw [Tree.render_of_ok R hr] at h
      have hstarts := hR.starts r text hnames h
      cases hfront : front r with
      | minus =>
        rw [hfront] at hstarts
        exact iff_of_true hstarts (.own hr hfront)
      | other =>
        rw [hfront] at hstarts
        refine iff_of_false hstarts fun hled => ?_
        cases hled <;> simp_all
      | operand x =>
        rw [hfront] at hstarts
        obtain ⟨s, hs, hsame⟩ := hstarts
        have hx := hR.mem_operands r x hfront
        rw [hsame, ih r hr x hx (hfirm.operands hr x hx) hs]
        refine ⟨.operand hr hfront, fun hled => ?_⟩
        cases hled <;> simp_all

/-- A real literal is bracketed if it starts with a minus sign. -/
theorem isLoose_of_led_real (hk : t.kind = .real) (h : t.Led front) : t.isLoose := by
  have hfront (r : Reading Tree) (hr : t.reading? = .ok r) :
      ∃ (negative : Prop) (_ : Decidable negative), front r = .ofSign negative ∧
        (negative → t.head.storedReal.isNegative) := by
    have hkind : t.head.kind = .real := hk
    simp only [Tree.reading?, Head.reading?, hkind] at hr
    cases hr
    split
    next negative hvalue =>
      refine ⟨negative = true, inferInstance, hR.infinity negative, fun hn => ?_⟩
      rw [Binary64.isNegative, hvalue]
      exact hn
    next => exact ⟨_, inferInstance, hR.real _ _, Binary64.isNegative_of_startsWithMinus⟩
  cases h with
  | own hr hminus =>
    obtain ⟨negative, _, hsign, hbelow⟩ := hfront _ hr
    exact Tree.isLoose_of_isNegative hk (hbelow (Front.ofSign_eq_minus.1 (hsign.symm.trans hminus)))
  | operand hr hoperand =>
    obtain ⟨negative, _, hsign, -⟩ := hfront _ hr
    exact absurd (hsign.symm.trans hoperand) Front.ofSign_ne_operand

/-- An operand in brackets, if it needs them as an operand of a sum, starts with a minus sign only if it
is not such a tree as is ever bracketed. -/
theorem startsWithMinus_insertion {above below : Tree → Bool} {h : Head} {place : Nat} {text : String}
    (hfirm : t.IsFirm) (hplace : encloses above below h place t = t.isLoose)
    (htext : R.insertion brackets above below h place t = .ok text) :
    StartsWithMinus text ↔ t.kind ∉ [.plus, .minus, .real] ∧ t.Led front := by
  rw [Renderer.insertion, hplace] at htext
  obtain ⟨s, hs, rfl⟩ := exists_of_map_eq_ok htext
  have hled := hR.startsWithMinus_iff hfirm hs
  cases hloose : t.isLoose with
  | true =>
    refine iff_of_false (hR.not_brackets s) fun h => h.1 ?_
    unfold Tree.isLoose at hloose
    split at hloose <;> simp_all
  | false =>
    refine hled.trans ⟨fun h => ⟨fun hkind => ?_, h⟩, fun h => h.2⟩
    simp only [List.mem_cons, List.not_mem_nil, or_false] at hkind
    obtain hk | hk | hk := hkind
    · simp [Tree.isLoose, hk] at hloose
    · simp [Tree.isLoose, hk] at hloose
    · rw [hR.isLoose_of_led_real hk h] at hloose
      cases hloose

/-- A sum, a difference or a product brackets what stands behind its signs as `encloses` says of the
operands of sums, so that only some trees bring a minus sign with them. -/
theorem behind {above below : Tree → Bool} {joinFactors joinParts : List String → String}
    {text : String} (hjoins : R.Joins brackets above below joinFactors joinParts)
    (hk : t.kind = .plus ∨ t.kind = .times ∨ t.kind = .minus ∧ t.head.form ≠ .unary)
    (hfirm : t.IsFirm) (h : t.render R = .ok text) :
    ∃ r, t.reading? = .ok r ∧
      t.render R = Renderer.joined joinFactors joinParts t.head <$>
        R.insertions brackets above below t.head r.operands ∧
      ∀ (i : Nat) (u : Tree), 1 ≤ i → r.operands[i]? = some u →
        ∃ s, R.insertion brackets above below t.head i u = .ok s ∧
          (StartsWithMinus s ↔ u.kind ∉ [.plus, .minus, .real] ∧ u.Led front) := by
  have hkind : t.head.kind = t.kind := rfl
  have harithmetic : t.kind.isArithmetic := by
    obtain hk | hk | ⟨hk, -⟩ := hk <;> rw [hk] <;> rfl
  obtain ⟨r, hr⟩ := hjoins.exists_reading h
  have hrow := hjoins.render_eq hr harithmetic
  obtain ⟨texts, htexts, -⟩ := exists_of_map_eq_ok (hrow.symm.trans h)
  refine ⟨r, hr, hrow, fun i u hi hu => ?_⟩
  obtain ⟨s, hs, -⟩ := Renderer.getElem?_insertions htexts hu
  have hplace : encloses above below t.head i u = u.isLoose := by
    have hne : i ≠ 0 := Nat.ne_of_gt hi
    obtain hk | hk | ⟨hk, hform⟩ := hk <;> simp [encloses, hkind, hk, hne]
  exact ⟨s, hs, hR.startsWithMinus_insertion
    (hfirm.operands hr u (List.mem_of_getElem? hu)) hplace hs⟩

end Renderer.Fronts

/-! ### Texts in a row -/

section

variable {sign a : String} {c : Char}

theorem startsWithMinus_append_of_ne (ha : a ≠ "") (b : String) :
    StartsWithMinus (a ++ b) ↔ StartsWithMinus a := by
  rw [StartsWithMinus, StartsWithMinus, String.toList_append]
  cases hl : a.toList with
  | nil => exact absurd (String.toList_eq_nil_iff.1 hl) ha
  | cons => rfl

theorem not_startsWithMinus_join (hsign : sign.toList.head? = some c) (hc : c ≠ '-')
    (others : List String) : ¬ StartsWithMinus (String.join (others.map (sign ++ ·))) := by
  cases others with
  | nil => exact (by decide : ¬ StartsWithMinus "")
  | cons a others =>
    rw [List.map_cons, String.join_cons, String.append_assoc]
    exact not_startsWithMinus_append hsign hc _

theorem startsWithMinus_row (hsign : sign.toList.head? = some c) (hc : c ≠ '-') (a : String)
    (others : List String) :
    StartsWithMinus (a ++ String.join (others.map (sign ++ ·))) ↔ StartsWithMinus a :=
  startsWithMinus_append (not_startsWithMinus_join hsign hc others)

theorem startsWithMinus_between (hsign : sign.toList.head? = some c) (hc : c ≠ '-') (a b : String) :
    StartsWithMinus (a ++ sign ++ b) ↔ StartsWithMinus a := by
  rw [String.append_assoc]
  exact startsWithMinus_append (not_startsWithMinus_append hsign hc b)

end

section

variable {R : Renderer Rendition} {brackets : String → String}
  (hb : ∀ s, ¬ StartsWithMinus (brackets s)) {text sign : String} {c : Char}

include hb in
/-- Texts with a sign between them that is not a minus. -/
theorem starts_first {bracketed : Tree → Bool} {f : Term → Rendition}
    (hf : ∀ x : Tree, f (x.operand R) = Term.enclosedIf brackets (bracketed x) <$> x.render R)
    (hsign : sign.toList.head? = some c) (hc : c ≠ '-') {xs : List Tree}
    (h : sign.intercalate <$> (xs.map (Tree.operand R)).mapM f = .ok text) :
    (Front.first bracketed xs).Starts R text := by
  obtain ⟨texts, htexts, rfl⟩ := exists_of_map_eq_ok h
  cases xs with
  | nil =>
    cases htexts
    exact (by decide : ¬ StartsWithMinus "")
  | cons x xs =>
    rw [List.map_cons, List.mapM_cons, hf] at htexts
    obtain ⟨a, ha, htexts⟩ := exists_of_bind_eq_ok htexts
    obtain ⟨others, -, htexts⟩ := exists_of_bind_eq_ok htexts
    obtain ⟨s, hs, rfl⟩ := exists_of_map_eq_ok ha
    cases htexts
    rw [intercalate_cons]
    exact Front.starts_bare hb hs (startsWithMinus_row hsign hc _ others)

include hb in
theorem starts_arguments {xs : List Tree}
    (h : Term.arguments (xs.map (Tree.operand R)) = .ok text) :
    (Front.first (fun _ => false) xs).Starts R text := by
  have hcomma : ", ".toList.head? = some ',' := rfl
  exact starts_first hb (f := (·.result)) (fun x => (id_map _).symm) hcomma (by decide) h

theorem starts_sum {xs : List Tree}
    (h : Term.chain brackets "+" (xs.map (Tree.operand R)) = .ok text) :
    (Front.first (fun _ => false) xs).Starts R text := by
  have hplus : "+".toList.head? = some '+' := rfl
  cases xs with
  | nil =>
    cases h
    exact (by decide : ¬ StartsWithMinus "")
  | cons x xs =>
    obtain ⟨a, ha, h⟩ := exists_of_bind_eq_ok h
    obtain ⟨others, -, h⟩ := exists_of_bind_eq_ok h
    cases h
    exact ⟨a, ha, startsWithMinus_row hplus (by decide) a others⟩

/-- A difference starts with its own sign if nothing is written for its first operand. -/
theorem starts_difference {x : Tree} {y : Term}
    (h : Term.chain brackets "-" [x.operand R, y] = .ok text) :
    (if x.render R = .ok "" then Front.minus else .operand x).Starts R text := by
  obtain ⟨a, ha, h⟩ := exists_of_bind_eq_ok h
  obtain ⟨others, hothers, h⟩ := exists_of_bind_eq_ok h
  have hrender : x.render R = .ok a := ha
  rw [List.mapM_cons, List.mapM_nil] at hothers
  obtain ⟨b, -, hothers⟩ := exists_of_bind_eq_ok hothers
  cases hothers
  cases h
  rw [List.map_cons, List.map_nil, String.join_cons, String.join_nil, String.append_empty, hrender]
  split_ifs with hempty
  · rw [Except.ok.inj hempty, String.empty_append]
    exact startsWithMinus_minus b
  · exact ⟨a, hrender, startsWithMinus_append_of_ne (fun ha => hempty (congrArg Except.ok ha)) _⟩

include hb in
theorem starts_relation (hsign : sign.toList.head? = some c) (hc : c ≠ '-') {x : Tree} {y : Term}
    (h : Term.relation brackets sign (x.operand R) y = .ok text) :
    (Front.bare x.kind.isRelational x).Starts R text := by
  obtain ⟨left, hleft, h⟩ := exists_of_bind_eq_ok h
  obtain ⟨right, -, h⟩ := exists_of_bind_eq_ok h
  obtain ⟨s, hs, rfl⟩ := exists_of_map_eq_ok hleft
  cases h
  exact Front.starts_bare hb hs (startsWithMinus_between hsign hc _ right)

end

end MathTree
