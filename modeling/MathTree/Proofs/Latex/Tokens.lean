import MathTree.Render.Latex

/-!
# Tokens of LaTeX

LaTeX reads its source token by token: a backslash takes the letters behind it, or the one other
character there, and any other character is a token of its own (`tokens`).  A source is `Balanced` if
braces, and `\left` with `\right`, enclose balanced sources.  What follows a text may be added to its
last token.  To a `Closed` text only letters can be added, and to a `Firm` one nothing can, so that the
tokens of the whole are those of the parts (`Ends.append`, `Ends.append_apart`).
-/

namespace MathTree.Latex

inductive Token where
  | char (c : Char)
  /-- A backslash with what it takes. -/
  | control (name : List Char)
  deriving DecidableEq, Repr

namespace Token

def left : Token := .control ['l', 'e', 'f', 't']

def right : Token := .control ['r', 'i', 'g', 'h', 't']

/-- Whether a token neither opens nor closes anything, and is complete. -/
def IsPlain (t : Token) : Prop := t ∉ [.char '{', .char '}', left, right, .control []]

instance (t : Token) : Decidable t.IsPlain := inferInstanceAs (Decidable (_ ∉ _))

end Token

section

variable (letter : Char → Bool)

/-- The tokens of a text that stands behind a backslash and the letters in `name`, if there is one. -/
def tokensFrom : (name : Option (List Char)) → List Char → List Token
  | none, [] => []
  | none, c :: text =>
    if c = '\\' then tokensFrom (some []) text else .char c :: tokensFrom none text
  | some name, [] => [.control name]
  | some name, c :: text =>
    if letter c then tokensFrom (some (name ++ [c])) text
    else if name = [] then .control [c] :: tokensFrom none text
    else .control name ::
      if c = '\\' then tokensFrom (some []) text else .char c :: tokensFrom none text

/-- The tokens of a text.  Which characters are letters is open. -/
def tokens (text : List Char) : List Token := tokensFrom letter none text

end

/-- Whether a source has braces, and `\left` with `\right`, around balanced sources only. -/
inductive Balanced : List Token → Prop
  | nil : Balanced []
  | plain {t : Token} {ts : List Token} (ht : t.IsPlain) (hts : Balanced ts) : Balanced (t :: ts)
  | group {us ts : List Token} (hus : Balanced us) (hts : Balanced ts) :
    Balanced (.char '{' :: us ++ .char '}' :: ts)
  | delimited {us ts : List Token} (hus : Balanced us) (hts : Balanced ts) :
    Balanced (.left :: us ++ .right :: ts)

theorem Balanced.append {us ts : List Token} (hus : Balanced us) (hts : Balanced ts) :
    Balanced (us ++ ts) := by
  induction hus with
  | nil => exact hts
  | plain ht _ ih => exact .plain ht ih
  | group hinner _ _ ih => simpa using Balanced.group hinner ih
  | delimited hinner _ _ ih => simpa using Balanced.delimited hinner ih

/-! ### Reading tokens -/

/-- Which characters are letters: among those of ASCII, the usual ones. -/
def IsAlphabet (letter : Char → Bool) : Prop := ∀ c : Char, c.toNat < 128 → letter c = c.isAlpha

/-- Whether no letter stands in front of a text. -/
def Separate (letter : Char → Bool) (text : List Char) : Prop := ∀ c ∈ text.head?, letter c = false

variable {letter : Char → Bool} {c : Char} {name rest l l' : List Char}

theorem tokens_cons (hc : c ≠ '\\') : tokens letter (c :: rest) = .char c :: tokens letter rest :=
  if_neg hc

theorem tokens_symbol (hc : letter c = false) :
    tokens letter ('\\' :: c :: rest) = .control [c] :: tokens letter rest := by
  rw [tokens, tokensFrom, if_pos rfl, tokensFrom, if_neg (Bool.eq_false_iff.1 hc), if_pos rfl,
    tokens]

/-- A command ends before the first character that is no letter. -/
theorem tokens_command (hne : name ≠ []) (hname : ∀ c ∈ name, letter c)
    (hrest : Separate letter rest) :
    tokens letter ('\\' :: (name ++ rest)) = .control name :: tokens letter rest := by
  have hletters (l read : List Char) (hl : ∀ c ∈ l, letter c) :
      tokensFrom letter (some read) (l ++ rest) = tokensFrom letter (some (read ++ l)) rest := by
    induction l generalizing read with
    | nil => rw [List.nil_append, List.append_nil]
    | cons c l ih =>
      rw [List.cons_append, tokensFrom, if_pos (hl c List.mem_cons_self),
        ih _ fun d hd => hl d (List.mem_cons_of_mem _ hd), List.append_assoc, List.singleton_append]
  rw [tokens, tokensFrom, if_pos rfl, hletters _ _ hname, List.nil_append]
  cases rest with
  | nil => rfl
  | cons c rest =>
    rw [tokensFrom, if_neg (Bool.eq_false_iff.1 (hrest c rfl)), if_neg hne]
    rfl

/-! ### Texts that end in complete tokens -/

/-- Whether a text is balanced, and may stand before certain others without that tokens change. -/
def Ends (letter : Char → Bool) (before : List Char → Prop) (text : String) : Prop :=
  ∃ ts, Balanced ts ∧
    ∀ rest, before rest → tokens letter (text.toList ++ rest) = ts ++ tokens letter rest

/-- Whether only letters can be added to the last token of a text. -/
abbrev Closed (letter : Char → Bool) (text : String) : Prop := Ends letter (Separate letter) text

/-- Whether nothing can be added to the last token of a text. -/
abbrev Firm (letter : Char → Bool) (text : String) : Prop := Ends letter (fun _ => True) text

/-- Whether a text starts with a character, and that is no letter. -/
def StartsApart (letter : Char → Bool) (text : String) : Prop :=
  ∃ c rest, text.toList = c :: rest ∧ letter c = false

variable {before : List Char → Prop} {a b text : String}

theorem StartsApart.separate (h : StartsApart letter text) (rest : List Char) :
    Separate letter (text.toList ++ rest) := by
  obtain ⟨c, l, htext, hc⟩ := h
  rintro d hd
  rw [htext] at hd
  cases hd
  exact hc

theorem StartsApart.append (h : StartsApart letter a) (b : String) :
    StartsApart letter (a ++ b) := by
  obtain ⟨c, l, ha, hc⟩ := h
  exact ⟨c, l ++ b.toList, by rw [String.toList_append, ha, List.cons_append], hc⟩

theorem Ends.closed (h : Firm letter text) : Closed letter text := by
  obtain ⟨ts, hts, htext⟩ := h
  exact ⟨ts, hts, fun rest _ => htext rest trivial⟩

theorem Ends.balanced (h : Closed letter text) : Balanced (tokens letter text.toList) := by
  obtain ⟨ts, hts, htext⟩ := h
  have hempty : tokens letter [] = [] := rfl
  have hall := htext [] nofun
  rw [hempty, List.append_nil, List.append_nil] at hall
  rwa [hall]

theorem firm_empty : Firm letter "" := ⟨[], .nil, fun _ _ => rfl⟩

theorem Ends.append (ha : Firm letter a) (hb : Ends letter before b) :
    Ends letter before (a ++ b) := by
  obtain ⟨ts, hts, hta⟩ := ha
  obtain ⟨us, hus, hub⟩ := hb
  refine ⟨ts ++ us, hts.append hus, fun rest hrest => ?_⟩
  rw [String.toList_append, List.append_assoc, hta _ trivial, hub _ hrest, List.append_assoc]

/-- A text that no letter can be added to. -/
theorem Ends.append_apart (ha : Closed letter a) (hb : Ends letter before b)
    (hsign : StartsApart letter b) : Ends letter before (a ++ b) := by
  obtain ⟨ts, hts, hta⟩ := ha
  obtain ⟨us, hus, hub⟩ := hb
  refine ⟨ts ++ us, hts.append hus, fun rest hrest => ?_⟩
  rw [String.toList_append, List.append_assoc, hta _ (hsign.separate rest), hub _ hrest,
    List.append_assoc]

/-! ### Characters, commands and what encloses -/

/-- Whether a text has no backslash and no brace. -/
def IsOrdinary (text : String) : Prop := text.toList.all (· ∉ ['\\', '{', '}'])

theorem firm_ofList (h : ∀ c ∈ l, c ∉ ['\\', '{', '}']) : Firm letter (String.ofList l) := by
  induction l with
  | nil => exact firm_empty
  | cons c l ih =>
    have hc : c ≠ '\\' ∧ c ≠ '{' ∧ c ≠ '}' := by simpa using h c List.mem_cons_self
    obtain ⟨ts, hts, hl⟩ := ih fun d hd => h d (List.mem_cons_of_mem _ hd)
    have hplain : (Token.char c).IsPlain := by simp [Token.IsPlain, Token.left, Token.right, hc]
    refine ⟨.char c :: ts, .plain hplain hts, fun rest _ => ?_⟩
    have hrest := hl rest trivial
    rw [String.toList_ofList] at hrest
    rw [String.toList_ofList, List.cons_append, tokens_cons hc.1, hrest, List.cons_append]

theorem firm_ordinary (text : String) (h : IsOrdinary text) : Firm letter text := by
  have hfirm : Firm letter (String.ofList text.toList) :=
    firm_ofList fun c hc => by simpa using List.all_eq_true.1 h c hc
  rwa [String.ofList_toList] at hfirm

theorem firm_group (h : Closed letter text) (hbrace : letter '}' = false) :
    Firm letter (group text) := by
  obtain ⟨ts, hts, htext⟩ := h
  refine ⟨.char '{' :: ts ++ [.char '}'], .group hts .nil, fun rest _ => ?_⟩
  have hopen : (group text).toList ++ rest = '{' :: (text.toList ++ '}' :: rest) := by
    simp [group, String.toList_append]
  have hclose : Separate letter ('}' :: rest) := by
    rintro d hd
    cases hd
    exact hbrace
  rw [hopen, tokens_cons (by decide), htext _ hclose, tokens_cons (by decide)]
  simp

section

variable (hl : IsAlphabet letter)
include hl

theorem IsAlphabet.apart (hc : c.toNat < 128) (hsign : c.isAlpha = false) : letter c = false :=
  (hl c hc).trans hsign

theorem IsAlphabet.startsApart (htext : text.toList = c :: l) (hc : c.toNat < 128)
    (hsign : c.isAlpha = false) : StartsApart letter text :=
  ⟨c, l, htext, hl.apart hc hsign⟩

theorem IsAlphabet.letters (h : l.all fun c => c.isAlpha && c.toNat < 128) :
    ∀ c ∈ l, letter c := by
  intro c hc
  have hboth := List.all_eq_true.1 h c hc
  rw [Bool.and_eq_true, decide_eq_true_eq] at hboth
  rw [hl c hboth.2, hboth.1]

theorem IsAlphabet.closed_command (name : String) (hname : name ∉ ["", "left", "right"])
    (hletters : name.toList.all fun c => c.isAlpha && c.toNat < 128) :
    Closed letter ("\\" ++ name) := by
  have hne (other : String) (h : other ∈ ["", "left", "right"]) : name.toList ≠ other.toList :=
    fun heq => hname (String.toList_inj.1 heq ▸ h)
  have hempty : name.toList ≠ [] := hne "" (by simp)
  have hplain : (Token.control name.toList).IsPlain := by
    have hleft := hne "left" (by simp)
    have hright := hne "right" (by simp)
    simp only [Token.IsPlain, Token.left, Token.right, List.mem_cons, Token.control.injEq,
      List.not_mem_nil, or_false, reduceCtorEq, false_or, not_or]
    exact ⟨hleft, hright, hempty⟩
  refine ⟨[.control name.toList], .plain hplain .nil, fun rest hrest => ?_⟩
  have hsplit : ("\\" ++ name).toList ++ rest = '\\' :: (name.toList ++ rest) := by
    simp [String.toList_append]
  rw [hsplit, tokens_command hempty (hl.letters hletters) hrest, List.singleton_append]

/-- A command with signs behind it that end its name. -/
theorem IsAlphabet.firm_command (name signs : String) (htext : text = "\\" ++ name ++ signs)
    (hname : name ∉ ["", "left", "right"])
    (hletters : name.toList.all fun c => c.isAlpha && c.toNat < 128) (hsigns : IsOrdinary signs)
    (happart : StartsApart letter signs) : Firm letter text := by
  subst htext
  exact (hl.closed_command name hname hletters).append_apart (firm_ordinary signs hsigns) happart

/-- `\left` and `\right`, each with its delimiter, around a text. -/
theorem IsAlphabet.ends_delimited (opening closing : String) (ha : a = "\\left" ++ opening)
    (hb : b = "\\right" ++ closing) (hopening : Firm letter opening)
    (hopens : StartsApart letter opening) (htext : Closed letter text)
    (hclosing : Ends letter before closing) (hcloses : StartsApart letter closing) :
    Ends letter before (a ++ text ++ b) := by
  subst ha hb
  obtain ⟨ts, hts, hinner⟩ := Ends.append hopening htext
  obtain ⟨us, hus, houter⟩ := hclosing
  refine ⟨.left :: ts ++ .right :: us, .delimited hts hus, fun rest hrest => ?_⟩
  let behind := '\\' :: (['r', 'i', 'g', 'h', 't'] ++ (closing.toList ++ rest))
  have hsplit : ("\\left" ++ opening ++ text ++ ("\\right" ++ closing)).toList ++ rest
      = '\\' :: (['l', 'e', 'f', 't'] ++ ((opening ++ text).toList ++ behind)) := by
    simp [behind, String.toList_append]
  have hback : Separate letter behind := by
    rintro d hd
    cases hd
    exact hl.apart (by decide) rfl
  have hright : tokens letter behind = .right :: us ++ tokens letter rest := by
    rw [tokens_command (List.cons_ne_nil _ _) (hl.letters rfl) (hcloses.separate rest),
      houter _ hrest]
    rfl
  rw [hsplit, tokens_command (List.cons_ne_nil _ _) (hl.letters rfl)
    ((hopens.append text).separate behind), hinner _ hback, hright]
  simp [Token.left]

end

end MathTree.Latex
