import MathTree.Proofs.Latex.Tokens
import MathTree.Proofs.Number.Plain
import MathTree.Proofs.Render.Operands
import MathTree.Proofs.Text.Mask

/-!
# Balanced LaTeX

Whatever is written in LaTeX is balanced, with any characters in names (`latex_balanced`).  Each
template is closed if the texts that it takes are, a masked name is firm, and so all texts are closed by
induction on what is rendered.
-/

namespace MathTree.Latex

open MathTree.Number MathTree.Text

variable {letter : Char → Bool} {before : List Char → Prop} {a b sign text : String}

/-! ### Names and numbers -/

theorem firm_symbol {c : Char} (hc : letter c = false) :
    Firm letter (String.ofList ['\\', c]) := by
  have hplain : (Token.control [c]).IsPlain := by simp [Token.IsPlain, Token.left, Token.right]
  refine ⟨[.control [c]], .plain hplain .nil, fun rest _ => ?_⟩
  rw [String.toList_ofList]
  exact tokens_symbol hc

/-- Numbers have neither backslashes nor braces. -/
theorem firm_of_isPlain (h : IsPlain text) : Firm letter text := by
  have hsigns : ['\\', '{', '}'].all fun c => !isPlainChar c := rfl
  refine firm_ordinary _ (List.all_eq_true.2 fun c hc => decide_eq_true fun hmem => ?_)
  have hnot := List.all_eq_true.1 hsigns c hmem
  rw [h c hc] at hnot
  cases hnot

theorem firm_intText (n : Int) : Firm letter (intText n) := firm_of_isPlain (isPlain_intText n)

theorem firm_mask (hl : IsAlphabet letter) (name : String) : Firm letter (mask false name) := by
  have hspecial : ['_', '\\', '$', '&', '#', '{', '}', '~', '%', '^'].all
      fun c => c.toNat < 128 && !c.isAlpha := rfl
  have hmasked : ['\\', '{', '}'].all isMasked := rfl
  rw [mask_eq_flatMap]
  induction trim name.toList with
  | nil => exact firm_empty
  | cons c l ih =>
    have hchar : Firm letter (String.ofList (maskChar false none c)) := by
      rcases maskChar_false_cases c with ⟨-, h⟩ | ⟨-, h⟩ | ⟨hc, h⟩ | ⟨hc, h⟩ <;> rw [h]
      · exact firm_ordinary _ rfl
      · exact firm_ordinary _ rfl
      · have hsign := List.all_eq_true.1 hspecial c (List.contains_iff_mem.1 hc)
        rw [Bool.and_eq_true, decide_eq_true_eq, Bool.not_eq_true'] at hsign
        exact firm_symbol (hl.apart hsign.1 hsign.2)
      · refine firm_ofList fun d hd hmem => hc ?_
        rw [← List.mem_singleton.1 hd]
        exact List.all_eq_true.1 hmasked d hmem
    rw [List.flatMap_cons, String.ofList_append]
    exact hchar.append ih

/-! ### Computations -/

/-- Whether a computation comes to nothing but what has a property. -/
def Gives {α : Type} (P : α → Prop) (made : Except Fault α) : Prop := ∀ a, made = .ok a → P a

namespace Gives

variable {α β : Type} {P : α → Prop} {Q : β → Prop} {made : Except Fault α}

theorem error (fault : Fault) : Gives P (.error fault) := by
  intro a h
  cases h

theorem ok {a : α} (h : P a) : Gives P (.ok a) := by
  rintro _ ⟨⟩
  exact h

theorem map {f : α → β} (h : Gives P made) (hf : ∀ a, P a → Q (f a)) : Gives Q (f <$> made) := by
  rintro b hb
  obtain ⟨a, ha, rfl⟩ := exists_of_map_eq_ok hb
  exact hf a (h a ha)

theorem bind {k : α → Except Fault β} (h : Gives P made) (hk : ∀ a, P a → Gives Q (k a)) :
    Gives Q (made >>= k) := by
  rintro b hb
  obtain ⟨a, ha, hka⟩ := exists_of_bind_eq_ok hb
  exact hk a (h a ha) b hka

theorem mapM {γ : Type} {f : γ → Except Fault α} {xs : List γ} (h : ∀ x ∈ xs, Gives P (f x)) :
    Gives (fun as : List α => ∀ a ∈ as, P a) (xs.mapM f) := by
  induction xs with
  | nil => exact .ok (by simp)
  | cons x xs ih =>
    rw [List.mapM_cons]
    refine (h x List.mem_cons_self).bind fun a ha => ?_
    refine (ih fun y hy => h y (List.mem_cons_of_mem _ hy)).map fun as has => ?_
    exact List.forall_mem_cons.2 ⟨ha, has⟩

end Gives

/-! ### Templates -/

section

variable (hl : IsAlphabet letter)
include hl

theorem firm_brackets (h : Closed letter text) : Firm letter (brackets text) := by
  have hopens : StartsApart letter "(" := hl.startsApart rfl (by decide) rfl
  have hcloses : StartsApart letter ")" := hl.startsApart rfl (by decide) rfl
  exact hl.ends_delimited "(" ")" rfl rfl (firm_ordinary "(" rfl) hopens h (firm_ordinary ")" rfl)
    hcloses

theorem firm_argument (h : Closed letter text) : Firm letter (group text) :=
  firm_group h (hl.apart (by decide) rfl)

theorem startsApart_brackets (text : String) : StartsApart letter (brackets text) :=
  StartsApart.append (StartsApart.append (hl.startsApart rfl (by decide) rfl) _) _

theorem startsApart_group (text : String) : StartsApart letter (group text) :=
  StartsApart.append (StartsApart.append (hl.startsApart rfl (by decide) rfl) _) _

/-- A command applied to an argument. -/
theorem firm_applied (name : String) (hname : name ∉ ["", "left", "right"])
    (hletters : name.toList.all fun c => c.isAlpha && c.toNat < 128) (h : Closed letter text) :
    Firm letter (command name text) :=
  (hl.closed_command name hname hletters).append_apart (firm_argument hl h)
    (startsApart_group hl text)

theorem firm_upright (h : Closed letter text) : Firm letter (upright text) :=
  firm_applied hl "mathrm" (by decide) rfl h

end

/-- A sign that may stand between two texts. -/
structure IsSeparator (letter : Char → Bool) (sign : String) : Prop where
  firm : Firm letter sign
  apart : StartsApart letter sign

theorem IsSeparator.between (h : IsSeparator letter sign) (ha : Closed letter a)
    (hb : Ends letter before b) : Ends letter before (a ++ sign ++ b) :=
  (ha.append_apart h.firm h.apart).append hb

theorem IsSeparator.intercalate (h : IsSeparator letter sign) {texts : List String}
    (htexts : ∀ s ∈ texts, Closed letter s) : Closed letter (sign.intercalate texts) := by
  induction texts with
  | nil => exact firm_empty.closed
  | cons a texts ih =>
    have ha := htexts a List.mem_cons_self
    cases texts with
    | nil => simpa using ha
    | cons b texts =>
      rw [String.intercalate_cons_cons]
      exact h.between ha (ih fun s hs => htexts s (List.mem_cons_of_mem _ hs))

theorem IsSeparator.join (h : IsSeparator letter sign) {first : String} {texts : List String}
    (hfirst : Closed letter first) (htexts : ∀ s ∈ texts, Closed letter s) :
    Closed letter (first ++ String.join (texts.map (sign ++ ·))) := by
  induction texts generalizing first with
  | nil => simpa using hfirst
  | cons a texts ih =>
    have hnext := ih (h.between hfirst (htexts a List.mem_cons_self))
      fun s hs => htexts s (List.mem_cons_of_mem _ hs)
    rw [List.map_cons, String.join_cons, ← String.append_assoc, ← String.append_assoc]
    exact hnext

/-! ### Signs -/

section

variable (hl : IsAlphabet letter)
include hl

/-- A sign without a command. -/
theorem isSeparator_ordinary {c : Char} {l : List Char} (hsign : IsOrdinary sign)
    (hfirst : sign.toList = c :: l) (hc : c.toNat < 128 ∧ c.isAlpha = false) :
    IsSeparator letter sign :=
  ⟨firm_ordinary _ hsign, hl.startsApart hfirst hc.1 hc.2⟩

/-- A command with a blank behind it. -/
theorem isSeparator_command (name : String) (hsign : sign = "\\" ++ name ++ " ")
    (hname : name ∉ ["", "left", "right"])
    (hletters : name.toList.all fun c => c.isAlpha && c.toNat < 128) : IsSeparator letter sign := by
  refine ⟨hl.firm_command name " " hsign hname hletters rfl (hl.startsApart rfl (by decide) rfl), ?_⟩
  subst hsign
  exact StartsApart.append (StartsApart.append (hl.startsApart rfl (by decide) rfl) _) _

theorem isSeparator_cdot : IsSeparator letter "\\cdot " :=
  isSeparator_command hl "cdot" rfl (by decide) rfl

theorem isSeparator_relationSign (r : Relation) : IsSeparator letter (relationSign r) := by
  have hcommand (name sign : String) (hsign : sign = " " ++ ("\\" ++ name ++ " "))
      (hname : name ∉ ["", "left", "right"])
      (hletters : name.toList.all fun c => c.isAlpha && c.toNat < 128) :
      IsSeparator letter sign := by
    subst hsign
    refine ⟨?_, StartsApart.append (hl.startsApart rfl (by decide) rfl) _⟩
    exact Ends.append (firm_ordinary _ rfl) (isSeparator_command hl name rfl hname hletters).firm
  cases r with
  | eq | lt | gt => exact isSeparator_ordinary hl rfl rfl (by decide)
  | neq => exact hcommand "neq" _ rfl (by decide) rfl
  | leq => exact hcommand "leq" _ rfl (by decide) rfl
  | geq => exact hcommand "geq" _ rfl (by decide) rfl

theorem isSeparator_connectiveSign (c : Connective) : IsSeparator letter (connectiveSign c) := by
  cases c with
  | and => exact isSeparator_command hl "wedge" rfl (by decide) rfl
  | or => exact isSeparator_command hl "lor" rfl (by decide) rfl
  | xor => exact isSeparator_command hl "oplus" rfl (by decide) rfl

theorem isSeparator_comma : IsSeparator letter ", " :=
  isSeparator_ordinary hl rfl rfl (by decide)

/-! ### What nodes are written as -/

theorem closed_enclosedIf (condition : Bool) (h : Closed letter text) :
    Closed letter (Term.enclosedIf brackets condition text) := by
  cases condition
  · exact h
  · exact (firm_brackets hl h).closed

theorem firm_power (h : Closed letter text) : Firm letter ("10^" ++ group text) :=
  Ends.append (firm_ordinary _ rfl) (firm_argument hl h)

theorem firm_numberText (x : Binary64) : Firm letter (numberText x) := by
  have hplain := x.isPlain_realText
  unfold numberText
  cases hsplit : splitScientific? x.realText with
  | none => exact firm_of_isPlain hplain
  | some parts =>
    obtain ⟨mantissa, exponent⟩ := parts
    rw [eq_of_splitScientific? hsplit] at hplain
    have hpower := firm_power hl (firm_of_isPlain hplain.right).closed
    dsimp only
    split_ifs
    · exact hpower
    · exact Ends.append (firm_ordinary _ rfl) hpower
    · exact (isSeparator_cdot hl).between (firm_of_isPlain hplain.left.left).closed hpower

theorem gives_operand {x : Term} (h : Gives (Closed letter) x.result) :
    Gives (Closed letter) (operand x) :=
  h.map fun _ => closed_enclosedIf hl _

theorem gives_bracketsAbove {x : Term} (n : Nat) (h : Gives (Closed letter) x.result) :
    Gives (Closed letter) (bracketsAbove n x) :=
  h.map fun _ => closed_enclosedIf hl _

section

variable {terms : List Term} (h : ∀ x ∈ terms, Gives (Closed letter) x.result)
include h

theorem gives_chain (hsign : IsSeparator letter sign) :
    Gives (Closed letter) (Term.chain brackets sign terms) := by
  cases terms with
  | nil => exact .ok firm_empty.closed
  | cons x xs =>
    refine (h x List.mem_cons_self).bind fun first hfirst => ?_
    have hothers : ∀ y ∈ xs, Gives (Closed letter) (y.operand brackets) := fun y hy =>
      gives_operand hl (h y (List.mem_cons_of_mem _ hy))
    exact (Gives.mapM hothers).map fun others => hsign.join hfirst

theorem gives_arguments : Gives (Closed letter) (Term.arguments terms) :=
  (Gives.mapM h).map fun _ => (isSeparator_comma hl).intercalate

omit hl in
theorem gives_first : Gives (Closed letter) (first terms) := by
  cases terms with
  | nil => exact .ok firm_empty.closed
  | cons x xs => exact h x List.mem_cons_self

theorem gives_lambda : Gives (Closed letter) (lambda terms) := by
  have hparameters := gives_arguments hl fun x hx => h x ((List.dropLast_sublist terms).mem hx)
  have hequals : Firm letter " = " := firm_ordinary _ rfl
  have hwhole {body : String} (hbody : Closed letter body) : Gives (Closed letter)
      ((fun xs => "\\lambda" ++ brackets xs ++ " = " ++ body)
        <$> Term.arguments terms.dropLast) := by
    refine hparameters.map fun xs hxs => ?_
    have hhead : Firm letter ("\\lambda" ++ brackets xs) :=
      (hl.closed_command "lambda" (by decide) rfl).append_apart (firm_brackets hl hxs)
        (startsApart_brackets hl xs)
    exact (hhead.append hequals).append hbody
  unfold lambda
  cases hlast : terms.getLast? with
  | none => exact hwhole firm_empty.closed
  | some body => exact (h body (List.mem_of_getLast? hlast)).bind fun _ => hwhole

theorem gives_piecewise : Gives (Closed letter) (piecewise terms) := by
  have hnewline : IsSeparator letter "\\\\\n" := by
    have hsplit : "\\\\\n" = String.ofList ['\\', '\\'] ++ "\n" := rfl
    have hslash : letter '\\' = false := hl.apart (by decide) rfl
    refine ⟨?_, hl.startsApart rfl (by decide) rfl⟩
    rw [hsplit]
    exact (firm_symbol hslash).append (firm_ordinary "\n" rfl)
  have hdcases : Firm letter (group "dcases") :=
    firm_argument hl (firm_ordinary "dcases" rfl).closed
  have hbegin : Firm letter ("\\begin" ++ group "dcases") :=
    firm_applied hl "begin" (by decide) rfl (firm_ordinary "dcases" rfl).closed
  have hend : Closed letter "\n\\end" := by
    have hsplit : "\n\\end" = "\n" ++ ("\\" ++ "end") := rfl
    rw [hsplit]
    exact Ends.append (firm_ordinary "\n" rfl) (hl.closed_command "end" (by decide) rfl)
  have happart : StartsApart letter "\n\\end" := hl.startsApart rfl (by decide) rfl
  refine (Gives.mapM h).bind fun cases hcases => .ok ?_
  have hopened : Firm letter ("\\begin" ++ group "dcases" ++ "\n") :=
    hbegin.append (firm_ordinary _ rfl)
  have hinner := hopened.append (hnewline.intercalate hcases)
  exact ((hinner.append_apart hend happart).append_apart hdcases (startsApart_group hl _)).closed

theorem gives_qualifier (q : Qualifier) : Gives (Closed letter) (qualifier q terms) := by
  have hmark : IsSeparator letter " & " := isSeparator_ordinary hl rfl rfl (by decide)
  have hwords {text : String} (htext : Closed letter text) : Firm letter (command "text" text) :=
    firm_applied hl "text" (by decide) rfl htext
  cases q with
  | bvar | degree | logbase => exact gives_first h
  | piece =>
    refine (gives_first h).bind fun value hvalue => ?_
    cases hterms : terms[1]? with
    | none => exact .ok hvalue
    | some condition =>
      have hif : Closed letter "if\\ " := by
        have hsplit : "if\\ " = "if" ++ String.ofList ['\\', ' '] := rfl
        have hblank : letter ' ' = false := hl.apart (by decide) rfl
        rw [hsplit]
        exact (Ends.append (firm_ordinary "if" rfl) (firm_symbol hblank)).closed
      refine (h condition (List.mem_of_getElem? hterms)).bind fun text htext => .ok ?_
      have hhead : Firm letter (value ++ " & " ++ command "text" "if\\ " ++ " ") :=
        (hmark.between hvalue (hwords hif)).append (firm_ordinary _ rfl)
      exact hhead.append htext
  | otherwise =>
    refine (gives_first h).map fun value hvalue => ?_
    exact (hmark.between hvalue (hwords (firm_ordinary "otherwise" rfl).closed)).closed

end

theorem gives_application (f : Elementary) {x : Term} (h : Gives (Closed letter) x.result) :
    Gives (Closed letter) (application f x) := by
  have hname : f.elementName ∉ ["", "left", "right"] ∧
      f.elementName.toList.all fun c => c.isAlpha && c.toNat < 128 := by
    cases f <;> exact ⟨by decide, rfl⟩
  unfold application
  split_ifs
  · exact (gives_bracketsAbove hl 1 h).map fun _ htext =>
      (firm_applied hl _ hname.1 hname.2 htext).closed
  · refine h.map fun text htext => ?_
    have hword : Firm letter f.elementName := by
      cases f <;> exact firm_ordinary _ rfl
    exact ((firm_upright hl hword.closed).append (firm_brackets hl htext)).closed

theorem gives_elementary (f : Elementary) {x : Term} (h : Gives (Closed letter) x.result) :
    Gives (Closed letter) (elementary f x) := by
  -- the delimiter on the right of a magnitude is the one that no blank follows
  have hlvert := isSeparator_command hl "lvert" rfl (by decide) rfl
  have hrvert : Closed letter "\\rvert" := hl.closed_command "rvert" (by decide) rfl
  have hlceil := isSeparator_command hl "lceil" rfl (by decide) rfl
  have hrceil := isSeparator_command hl "rceil" rfl (by decide) rfl
  have hlfloor := isSeparator_command hl "lfloor" rfl (by decide) rfl
  have hrfloor := isSeparator_command hl "rfloor" rfl (by decide) rfl
  have hmark : IsSeparator letter "!" := isSeparator_ordinary hl rfl rfl (by decide)
  unfold elementary
  split
  · exact h.map fun text htext => hl.ends_delimited "\\lvert " "\\rvert" rfl rfl hlvert.firm
      hlvert.apart htext hrvert (hl.startsApart rfl (by decide) rfl)
  · exact h.map fun text htext => (hl.ends_delimited "\\lceil " "\\rceil " rfl rfl hlceil.firm
      hlceil.apart htext hrceil.firm hrceil.apart).closed
  · exact h.map fun text htext => (hl.ends_delimited "\\lfloor " "\\rfloor " rfl rfl hlfloor.firm
      hlfloor.apart htext hrfloor.firm hrfloor.apart).closed
  · exact (gives_bracketsAbove hl 0 h).map fun _ htext =>
      (htext.append_apart hmark.firm hmark.apart).closed
  · exact gives_application hl f h

/-- A node is closed if its operands are. -/
theorem gives_form {r : Reading Term} (h : ∀ x ∈ r.operands, Gives (Closed letter) x.result) :
    Gives (Closed letter) (form {} r) := by
  have hname (name : String) : Firm letter (nameText {} name) := firm_mask hl name
  have hminus : Firm letter "-" := firm_ordinary "-" rfl
  have hfraction {a b : String} (ha : Closed letter a) (hb : Closed letter b) :
      Firm letter ("\\frac" ++ group a ++ group b) :=
    (firm_applied hl "frac" (by decide) rfl ha).append (firm_argument hl hb)
  cases r with
  | sum terms => exact gives_chain hl h (isSeparator_ordinary hl rfl rfl (by decide))
  | difference x y => exact gives_chain hl h (isSeparator_ordinary hl rfl rfl (by decide))
  | negation x =>
    exact (gives_operand hl (h x (by simp [Reading.operands]))).map fun _ => hminus.append
  | product xs =>
    have hfactors : ∀ x ∈ xs, Gives (Closed letter) (operand x) := fun x hx =>
      gives_operand hl (h x hx)
    exact (Gives.mapM hfactors).map fun _ => (isSeparator_cdot hl).intercalate
  | quotient x y =>
    refine (h x (by simp [Reading.operands])).bind fun a ha => ?_
    exact (h y (by simp [Reading.operands])).bind fun b hb => .ok (hfraction ha hb).closed
  | power x y =>
    refine (h x (by simp [Reading.operands])).bind fun a ha => ?_
    refine (h y (by simp [Reading.operands])).bind fun b hb => ?_
    have hraise : IsSeparator letter "^" := isSeparator_ordinary hl rfl rfl (by decide)
    split_ifs
    · exact .ok ha
    · exact .ok (hraise.between (closed_enclosedIf hl _ ha) (firm_argument hl hb)).closed
  | root x y =>
    have hsqrt : Firm letter "\\sqrt[" := hl.firm_command "sqrt" "[" rfl (by decide) rfl rfl
      (hl.startsApart rfl (by decide) rfl)
    have hclose : IsSeparator letter "]" := isSeparator_ordinary hl rfl rfl (by decide)
    change Gives (Closed letter) (do
      if x.tree.isLiteral 0 then throw Fault.zerothRoot
      let degree ← x.result
      let radicand ← y.result
      return "\\sqrt[" ++ degree ++ "]" ++ group radicand)
    split_ifs
    · exact .error _
    · refine (h x (by simp [Reading.operands])).bind fun a ha => ?_
      refine (h y (by simp [Reading.operands])).bind fun b hb => .ok ?_
      exact (hclose.between (hsqrt.append ha) (firm_argument hl hb)).closed
  | squareRoot x =>
    exact (h x (by simp [Reading.operands])).map fun a ha =>
      (firm_applied hl "sqrt" (by decide) rfl ha).closed
  | logarithm x y =>
    have hlog : Firm letter "\\log_" := hl.firm_command "log" "_" rfl (by decide) rfl rfl
      (hl.startsApart rfl (by decide) rfl)
    refine (h x (by simp [Reading.operands])).bind fun a ha => ?_
    refine (gives_bracketsAbove hl 1 (h y (by simp [Reading.operands]))).bind fun b hb => .ok ?_
    exact ((hlog.append (firm_argument hl ha)).append (firm_argument hl hb)).closed
  | delay name x y =>
    refine (h x (by simp [Reading.operands])).bind fun a ha => ?_
    refine (h y (by simp [Reading.operands])).bind fun b hb => .ok ?_
    have hinner := (isSeparator_comma hl).between ha hb
    exact ((firm_upright hl (hname name).closed).append (firm_brackets hl hinner)).closed
  | relation r x y =>
    have hside {x : Term} (hx : Gives (Closed letter) x.result) :
        Gives (Closed letter) (x.side brackets) := hx.map fun _ => closed_enclosedIf hl _
    refine (hside (h x (by simp [Reading.operands]))).bind fun a ha => ?_
    refine (hside (h y (by simp [Reading.operands]))).bind fun b hb => .ok ?_
    exact (isSeparator_relationSign hl r).between ha hb
  | connective c xs =>
    have hterms : ∀ x ∈ xs, Gives (Closed letter) (bracketsAbove 0 x) := fun x hx =>
      gives_bracketsAbove hl 0 (h x hx)
    exact (Gives.mapM hterms).map fun _ => (isSeparator_connectiveSign hl c).intercalate
  | not x =>
    have hneg := isSeparator_command hl "neg" rfl (by decide) rfl
    exact (gives_bracketsAbove hl 0 (h x (by simp [Reading.operands]))).map fun _ => hneg.firm.append
  | elementary f x => exact gives_elementary hl f (h x (by simp [Reading.operands]))
  | integer n units => exact .ok (firm_intText _).closed
  | real value units => exact .ok (firm_numberText hl value).closed
  | rational n d units => exact .ok (hfraction (firm_intText _).closed (firm_intText _).closed).closed
  | exponential mantissa exponent units =>
    have hten : IsSeparator letter "\\cdot 10^" :=
      ⟨hl.firm_command "cdot" " 10^" rfl (by decide) rfl rfl (hl.startsApart rfl (by decide) rfl),
        hl.startsApart rfl (by decide) rfl⟩
    exact .ok (hten.between (firm_numberText hl mantissa).closed
      (firm_argument hl (firm_intText _).closed)).closed
  | infinity negative =>
    have hinfinity : Closed letter "\\infty" := hl.closed_command "infty" (by decide) rfl
    exact .ok ((firm_of_isPlain (isPlain_minusIf negative)).append hinfinity)
  | constant c =>
    cases c with
    | e => exact .ok (firm_upright hl (firm_ordinary "e" rfl).closed).closed
    | pi => exact .ok (hl.closed_command "pi" (by decide) rfl)
    | truth => exact .ok (firm_upright hl (firm_ordinary "true" rfl).closed).closed
    | falsity => exact .ok (firm_upright hl (firm_ordinary "false" rfl).closed).closed
  | avogadro name | identifier name => exact .ok (hname name).closed
  | time name => exact .ok (firm_upright hl (hname name).closed).closed
  | lambda xs => exact gives_lambda hl h
  | piecewise xs => exact gives_piecewise hl h
  | call name xs =>
    have hcalled : Firm letter (command "mathtt" (nameText {} name)) :=
      firm_applied hl "mathtt" (by decide) rfl (hname name).closed
    cases xs with
    | nil => exact .ok hcalled.closed
    | cons x xs =>
      exact (gives_arguments hl h).map fun _ hxs => (hcalled.append (firm_brackets hl hxs)).closed
  | qualifier q xs => exact gives_qualifier hl h q
  | unknown =>
    exact .ok (firm_applied hl "text" (by decide) rfl (firm_ordinary " unknown " rfl).closed).closed

end

end MathTree.Latex

namespace MathTree

open Latex

/-- Whatever is written in LaTeX is balanced. -/
theorem Tree.latex_balanced {letter : Char → Bool} (hl : IsAlphabet letter) {t : Tree} {text : String}
    (h : t.latex = .ok text) : Balanced (tokens letter text.toList) := by
  have hclosed (t : Tree) : Gives (Closed letter) t.latex := by
    induction t using reading_induction with
    | step t ih =>
      rw [latex, render_eq]
      cases hr : t.reading? with
      | error fault => exact .error fault
      | ok r =>
        refine gives_form hl fun x hx => ?_
        rw [Reading.operands_map] at hx
        obtain ⟨u, hu, rfl⟩ := List.mem_map.1 hx
        exact ih r hr u hu
  exact (hclosed t text h).balanced

/-- The magnitude of a name that holds a command and a brace. -/
theorem Tree.latex_balanced_magnitude :
    let t : Tree := .node (.ofKind (.elementary .abs)) [leaf (.identifier "\\left\x7b")]
    let text := "\\left\\lvert \\\\left\\\x7b\\right\\rvert"
    (IsAlphabet Char.isAlpha ∧ t.latex = .ok text) ∧ Balanced (tokens Char.isAlpha text.toList) := by
  intro t text
  have hl : IsAlphabet Char.isAlpha := fun _ _ => rfl
  have htext : t.latex = .ok text := by decide +kernel
  exact ⟨⟨hl, htext⟩, latex_balanced hl htext⟩

end MathTree
