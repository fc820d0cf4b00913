import MathTree.Proofs.Render.LeftComb
import MathTree.Proofs.Render.Reads

/-!
# Contexts of a text

A rendition that holds another in one place is a context around it: it succeeds only if the other does,
and grows with it (`Frames`).  Chains, products and pairs are contexts around each of their operands
(`Term.frames_chain`, `Term.frames_mapM`, `Term.frames_two`).  So a context tells an operand in brackets
from the same operand without (`Frames.eq_iff`).
-/

namespace MathTree

/-! ### Lengths of texts -/

theorem length_intercalate (sep : String) {l : List String} (hne : l ≠ []) :
    (sep.intercalate l).length + sep.length = (l.map fun s => s.length + sep.length).sum := by
  induction l with
  | nil => exact absurd rfl hne
  | cons s l ih =>
    cases l with
    | nil => simp
    | cons t l =>
      have htail := ih (List.cons_ne_nil t l)
      rw [List.map_cons, List.sum_cons, ← htail]
      simp only [String.intercalate_cons_cons, String.length_append]
      omega

section

variable {a b : String} (h : a.length < b.length) (sep : String) (as bs : List String)
include h

theorem length_join_lt : (String.join ((as ++ a :: bs).map (sep ++ ·))).length
    < (String.join ((as ++ b :: bs).map (sep ++ ·))).length := by
  simp only [List.map_append, List.map_cons, String.join_append, String.join_cons,
    String.length_append]
  omega

theorem length_intercalate_lt :
    (sep.intercalate (as ++ a :: bs)).length < (sep.intercalate (as ++ b :: bs)).length := by
  have hlength (s : String) := length_intercalate sep (List.append_ne_nil_of_right_ne_nil as
    (List.cons_ne_nil s bs))
  have ha := hlength a
  have hb := hlength b
  simp only [List.map_append, List.map_cons, List.sum_append, List.sum_cons] at ha hb
  omega

/-- Also what is written as nothing, and therefore left out, is shorter than anything else. -/
theorem length_product_lt :
    (sep.intercalate ((as ++ a :: bs).filter (· ≠ ""))).length
      < (sep.intercalate ((as ++ b :: bs).filter (· ≠ ""))).length := by
  have hkept {s : String} (hs : s ≠ "") : (as ++ s :: bs).filter (· ≠ "")
      = as.filter (· ≠ "") ++ s :: bs.filter (· ≠ "") := by
    rw [List.filter_append, List.filter_cons_of_pos (by simpa using hs)]
  have hb : b ≠ "" := by
    rintro rfl
    exact Nat.not_lt_zero _ h
  rw [hkept hb]
  by_cases ha : a = ""
  · have hleft : (as ++ a :: bs).filter (· ≠ "") = as.filter (· ≠ "") ++ bs.filter (· ≠ "") := by
      rw [List.filter_append, List.filter_cons_of_neg (by simpa using ha)]
    rw [hleft]
    generalize as.filter (· ≠ "") = as, bs.filter (· ≠ "") = bs
    have hmore := length_intercalate sep (List.append_ne_nil_of_right_ne_nil as
      (List.cons_ne_nil b bs))
    simp only [List.map_append, List.map_cons, List.sum_append, List.sum_cons] at hmore
    by_cases hnone : as ++ bs = []
    · obtain ⟨rfl, rfl⟩ := List.append_eq_nil_iff.1 hnone
      simpa using Nat.zero_lt_of_lt h
    · have hless := length_intercalate sep hnone
      simp only [List.map_append, List.sum_append] at hless
      have hpos := Nat.zero_lt_of_lt h
      omega
  · rw [hkept ha]
    exact length_intercalate_lt h sep _ _

end

/-! ### Contexts -/

/-- Whether a rendition holds another in one place, which makes it the longer the longer it is. -/
def Frames (context : Rendition → Rendition) : Prop :=
  ∀ r text, context r = .ok text → ∃ (hole : String) (around : String → String),
    r = .ok hole ∧ (∀ s, context (.ok s) = .ok (around s)) ∧
      ∀ a b : String, a.length < b.length → (around a).length < (around b).length

theorem frames_const (fault : Fault) : Frames fun _ => .error fault := fun _ _ h => nomatch h

/-- What comes before a text, the text, and what comes after it. -/
theorem frames_between {α β : Type} (before : Except Fault α) (after : Except Fault β)
    (join : α → String → β → String)
    (hjoin : ∀ x y (a b : String), a.length < b.length → (join x a y).length < (join x b y).length) :
    Frames fun r => do
      let x ← before
      let text ← r
      let y ← after
      return join x text y := by
  intro r text h
  cases before with
  | error fault => cases h
  | ok x =>
    cases r with
    | error fault => cases h
    | ok hole =>
      cases after with
      | error fault => cases h
      | ok y => exact ⟨hole, (join x · y), rfl, fun _ => rfl, hjoin x y⟩

theorem Frames.isOk {context : Rendition → Rendition} (hc : Frames context)
    {f : String → String} {r : Rendition} (hok : (context (f <$> r)).isOk) : (context r).isOk := by
  cases htext : context (f <$> r) with
  | error fault =>
    rw [htext] at hok
    cases hok
  | ok text =>
    obtain ⟨hole, around, hhole, haround, -⟩ := hc _ _ htext
    obtain ⟨s, rfl, -⟩ := exists_of_map_eq_ok hhole
    rw [haround]
    rfl

/-- A context tells a text from a longer one. -/
theorem Frames.eq_iff {context : Rendition → Rendition} (hc : Frames context)
    {brackets : String → String} (hb : ∀ s, s.length < (brackets s).length) {enclosed : Bool}
    {r : Rendition} (hok : (context (Term.enclosedIf brackets enclosed <$> r)).isOk) :
    context r = context (Term.enclosedIf brackets enclosed <$> r) ↔ enclosed = false := by
  cases enclosed with
  | false =>
    refine iff_of_true ?_ rfl
    cases r <;> rfl
  | true =>
    refine iff_of_false (fun heq => ?_) Bool.noConfusion
    cases htext : context (Term.enclosedIf brackets true <$> r) with
    | error fault =>
      rw [htext] at hok
      cases hok
    | ok text =>
      obtain ⟨hole, around, hhole, haround, hgrows⟩ := hc _ _ htext
      obtain ⟨s, rfl, rfl⟩ := exists_of_map_eq_ok hhole
      have hsame : (.ok (around s) : Rendition) = .ok (around (brackets s)) := by
        rw [← haround, ← haround]
        exact heq
      have hlonger := hgrows s (brackets s) (hb s)
      rw [Except.ok.inj hsame] at hlonger
      exact Nat.lt_irrefl _ hlonger

namespace Term

variable (brackets : String → String) (sign : String) (pre post : List Term)

/-- Renditions of a list, joined. -/
theorem frames_mapM (f : Term → Rendition) {join : List String → String}
    (hjoin : ∀ {a b : String}, a.length < b.length → ∀ as bs,
      (join (as ++ a :: bs)).length < (join (as ++ b :: bs)).length) :
    ∃ context, Frames context ∧
      ∀ x : Term, join <$> (pre ++ x :: post).mapM f = context (f x) := by
  refine ⟨_, frames_between (pre.mapM f) (post.mapM f) (fun as a bs => join (as ++ a :: bs))
    fun as bs a b h => hjoin h as bs, fun x => ?_⟩
  rw [List.mapM_append, List.mapM_cons]
  cases pre.mapM f with
  | error => rfl
  | ok as =>
    cases f x with
    | error => rfl
    | ok text => cases post.mapM f <;> rfl

/-- A chain, of which the first operand is never bracketed. -/
theorem frames_chain : ∃ context, Frames context ∧ ∀ x : Term,
    chain brackets sign (pre ++ x :: post)
      = context (enclosedIf brackets (pre ≠ [] && x.tree.isLoose) <$> x.result) := by
  cases pre with
  | nil =>
    refine ⟨_, frames_between (.ok ()) (post.mapM (operand brackets))
      (fun _ first others => first ++ String.join (others.map (sign ++ ·)))
      fun _ others a b h => ?_, fun x => ?_⟩
    · simp only [String.length_append]
      omega
    · simp only [List.nil_append, chain]
      cases x.result with
      | error => rfl
      | ok first => cases post.mapM (operand brackets) <;> rfl
  | cons y pre =>
    refine ⟨_, frames_between
      (do return (← y.result, ← pre.mapM (operand brackets))) (post.mapM (operand brackets))
      (fun before text others =>
        before.1 ++ String.join ((before.2 ++ text :: others).map (sign ++ ·)))
      fun before others a b h => ?_, fun x => ?_⟩
    · have hjoin := length_join_lt h sign before.2 others
      simp only [String.length_append]
      omega
    · simp only [List.cons_append, chain, List.mapM_append, List.mapM_cons]
      cases y.result with
      | error => rfl
      | ok first =>
        cases pre.mapM (operand brackets) with
        | error => rfl
        | ok others =>
          simp only [operand]
          cases x.result with
          | error => rfl
          | ok text => cases post.mapM (operand brackets) <;> rfl

/-- Two operands, the one in the first place or the one in the second. -/
theorem frames_two (h : Head) (form : Term → Term → Rendition) (left right : Term → Rendition)
    (hleft : ∀ y, ∃ context, Frames context ∧ ∀ x, form x y = context (left x))
    (hright : ∀ y, ∃ context, Frames context ∧ ∀ x, form y x = context (right x)) :
    ∃ context, Frames context ∧ ∀ x : Term, (do
      let (a, b) ← h.two (pre ++ x :: post)
      form a b) = context (if pre = [] then left x else right x) := by
  by_cases hlen : pre.length + post.length = 1
  · rcases Nat.add_eq_one_iff.1 hlen with ⟨hpre, hpost⟩ | ⟨hpre, hpost⟩
    · obtain rfl := List.length_eq_zero_iff.1 hpre
      obtain ⟨y, rfl⟩ := List.length_eq_one_iff.1 hpost
      obtain ⟨context, hc, heq⟩ := hleft y
      exact ⟨context, hc, fun x => by rw [if_pos rfl, ← heq]; rfl⟩
    · obtain ⟨y, rfl⟩ := List.length_eq_one_iff.1 hpre
      obtain rfl := List.length_eq_zero_iff.1 hpost
      obtain ⟨context, hc, heq⟩ := hright y
      exact ⟨context, hc, fun x => by rw [if_neg (List.cons_ne_nil y []), ← heq]; rfl⟩
  · refine ⟨_, frames_const (.arity h.kind 2 (pre.length + post.length + 1)), fun x => ?_⟩
    have hcount : (pre ++ x :: post).length = pre.length + post.length + 1 := by
      rw [List.length_append, List.length_cons]
      omega
    rcases h.two_cases (pre ++ x :: post) with ⟨a, b, hab, -⟩ | ⟨-, htwo⟩
    · rw [hab] at hcount
      exact absurd (Nat.succ.inj hcount).symm hlen
    · rw [htwo, hcount]
      rfl

theorem frames_left (f : Term → Rendition) (other : Rendition) (join : String → String → String)
    (hjoin : ∀ a b s : String, a.length < b.length → (join a s).length < (join b s).length) :
    ∃ context, Frames context ∧ ∀ x, (do
      let a ← f x
      let s ← other
      return join a s) = context (f x) :=
  ⟨_, frames_between (.ok ()) other (fun _ a s => join a s) fun _ s a b => hjoin a b s, fun _ => rfl⟩

theorem frames_right (f : Term → Rendition) (other : Rendition) (join : String → String → String)
    (hjoin : ∀ a b s : String, a.length < b.length → (join s a).length < (join s b).length) :
    ∃ context, Frames context ∧ ∀ x, (do
      let s ← other
      let a ← f x
      return join s a) = context (f x) :=
  ⟨_, frames_between other (.ok ()) (fun s a _ => join s a) fun s _ a b => hjoin a b s, fun _ => rfl⟩

end Term

end MathTree
