import MathTree.Proofs.Action.Wrapping

/-!
# The layout of a `piecewise`

A `piecewise` to which children only come as cases or as its fallback, and from which they may go in any
way, holds its cases first and then its fallback, if it has one (`Forest.CasesFirst`).  What is put into
a new case or a new fallback may come from the `piecewise` itself, be it a case, the fallback or a part of
one: it leaves its place first, and the place of what is new is looked up in the children that are left
(`Forest.Places`).
-/

namespace MathTree

open Forest

variable {f g : Forest} {n p c v w : NodeId} {action : Action} {actions : List Action}
  {q : Qualifier} {cases fallback : List NodeId}

namespace Forest

/-- A `piecewise` holds these cases and then this fallback, if there is one, and counts them rightly. -/
structure CasesLaidOut (f : Forest) (p : NodeId) (cases fallback : List NodeId) : Prop where
  children : f.children p = cases ++ fallback
  kind_case : ∀ c ∈ cases, f.kind c = .qualifier .piece
  kind_fallback : ∀ c ∈ fallback, f.kind c = .qualifier .otherwise
  length_fallback : fallback.length ≤ 1
  caseCount : (f.head p).caseCount = .ok cases.length
  hasFallback : (f.head p).hasFallback = .ok (!fallback.isEmpty)

/-- Whether a `piecewise` holds its cases first and then its fallback, if it has one. -/
def CasesFirst (f : Forest) (p : NodeId) : Prop := ∃ cases fallback, f.CasesLaidOut p cases fallback

/-- Whether an action adds a case to a `piecewise`, sets its fallback or takes away a child that it
shows, or else gives it no child; and does not change the kind of a child that it has. -/
def TendsCases (p : NodeId) (f : Forest) (action : Action) : Prop :=
  f.Admits action ∧
  ((∃ v c, action = .addCase p v c) ∨ (∃ v, action = .setFallback p v) ∨
    (∃ i, action = .removeAt p i) ∨ ((f.after action).children p).Sublist (f.children p)) ∧
  ∀ n ∈ f.children p, ∀ kind, action ≠ .setKind n kind

/-- Whether an action that adds a case to a `piecewise` puts a new one behind all cases that stay, and one
that sets its fallback makes its last child a new one, which holds just what was given.  What was given
is then no child of the `piecewise` itself any more. -/
def Places (p : NodeId) (f : Forest) (action : Action) : Prop :=
  ∀ cases fallback, f.CasesLaidOut p cases fallback →
    (∀ v c, action = .addCase p v c → ((Edit.addCase p v c).run f).1 = .ok () →
      ¬ f.Has f.next ∧ (f.after action).CasesLaidOut p (cases.filter (· ∉ [v, c]) ++ [f.next])
        (fallback.filter (· ∉ [v, c]))) ∧
    ∀ v, action = .setFallback p v → ((Edit.setFallback p v).run f).1 = .ok () →
      ¬ f.Has f.next ∧ (f.after action).CasesLaidOut p (cases.filter (· ≠ v)) [f.next] ∧
        (f.after action).children f.next = [v]

/-! ### The layout -/

section

variable (hsplit : f.children p = cases ++ fallback)
  (hcase : ∀ c ∈ cases, f.kind c = .qualifier .piece)
  (hfallback : ∀ c ∈ fallback, f.kind c = .qualifier .otherwise)
include hsplit hcase hfallback

theorem countChildren_of_cases : f.countChildren p (.qualifier .piece) = cases.length := by
  rw [countChildren, hsplit, List.countP_append,
    List.countP_eq_length.2 fun c hc => by simpa using hcase c hc,
    List.countP_eq_zero.2 fun c hc => by simp [hfallback c hc], Nat.add_zero]

theorem exists_fallback_iff :
    (∃ c ∈ f.children p, f.kind c = .qualifier .otherwise) ↔ fallback ≠ [] := by
  rw [hsplit]
  constructor
  · rintro ⟨c, hc, hkind⟩ hnil
    rw [hnil, List.append_nil] at hc
    rw [hcase c hc] at hkind
    cases hkind
  · intro hne
    obtain ⟨c, hc⟩ := List.exists_mem_of_ne_nil fallback hne
    exact ⟨c, List.mem_append_right _ hc, hfallback c hc⟩

/-- All of the layout comes from the order of the children, once they are counted rightly. -/
theorem casesLaidOut_iff_counted (hform : (f.head p).form = .piecewise)
    (hlen : fallback.length ≤ 1) : f.CasesLaidOut p cases fallback ↔ f.Counted p := by
  have hcount := countChildren_of_cases hsplit hcase hfallback
  have hhas : decide (∃ c ∈ f.children p, f.kind c = .qualifier .otherwise) = !fallback.isEmpty := by
    rw [Bool.eq_iff_iff, decide_eq_true_iff, exists_fallback_iff hsplit hcase hfallback]
    simp
  constructor
  · intro h
    refine ⟨fun hl => ?_, fun _ => ?_⟩
    · rw [hform] at hl
      cases hl
    · rw [hcount, hhas]
      exact ⟨h.caseCount, h.hasFallback⟩
  · intro h
    have hcounts := h.2 hform
    rw [hcount, hhas] at hcounts
    exact ⟨hsplit, hcase, hfallback, hlen, hcounts.1, hcounts.2⟩

end

/-- A `piecewise` has the layout if its children are in order and counted rightly. -/
theorem casesFirst_iff : f.CasesFirst p ↔ (f.head p).form = .piecewise ∧ f.Counted p ∧
    Parted (f.kind · = .qualifier .piece) (f.kind · = .qualifier .otherwise) (f.children p) := by
  constructor
  · rintro ⟨cases, fallback, h⟩
    have hform := Edit.form_of_caseCount h.caseCount
    refine ⟨hform, ?_, cases, fallback, h.children, h.kind_case, h.kind_fallback,
      h.length_fallback⟩
    exact (casesLaidOut_iff_counted h.children h.kind_case h.kind_fallback hform
      h.length_fallback).1 h
  · rintro ⟨hform, hcounted, cases, fallback, hsplit, hcase, hfallback, hlen⟩
    exact ⟨cases, fallback,
      (casesLaidOut_iff_counted hsplit hcase hfallback hform hlen).2 hcounted⟩

/-- The place behind the cases is that of the fallback, or behind all children. -/
theorem fallbackPosition_of_cases (hsplit : f.children p = cases ++ fallback)
    (hcase : ∀ c ∈ cases, f.kind c = .qualifier .piece)
    (hfallback : ∀ c ∈ fallback, f.kind c = .qualifier .otherwise) :
    f.fallbackPosition p = if fallback = [] then none else some cases.length := by
  have hnone : cases.findIdx? (f.kind · = .qualifier .otherwise) = none :=
    List.findIdx?_eq_none_iff.2 fun c hc => by simp [hcase c hc]
  rw [fallbackPosition, hsplit, List.findIdx?_append, hnone]
  cases fallback with
  | nil => rfl
  | cons b fallback => simp [List.findIdx?_cons, hfallback b List.mem_cons_self]

namespace CasesLaidOut

variable (h : f.CasesLaidOut p cases fallback)
include h

theorem form : (f.head p).form = .piecewise := Edit.form_of_caseCount h.caseCount

theorem casesFirst : f.CasesFirst p := ⟨cases, fallback, h⟩

theorem has : f.Has p := by
  by_contra hn
  have hform := h.form
  rw [head, get_of_not_has f hn] at hform
  cases hform

theorem ne_placeholder (hl : f.Linked) : ∀ c ∈ f.children p, c ≠ .placeholder := by
  rintro c hc rfl
  rw [h.children] at hc
  have hkind := (List.mem_append.1 hc).imp (h.kind_case _) (h.kind_fallback _)
  rw [kind, hl.head_placeholder] at hkind
  rcases hkind with hkind | hkind <;> cases hkind

/-- The layout after an action that leaves the `piecewise` with these children. -/
theorem after (hl : f.Linked) (ha : f.Admits action)
    (hkind : ∀ n kind, action = .setKind n kind → n ∉ f.children p) {cases' fallback' : List NodeId}
    (hsplit : (f.after action).children p = cases' ++ fallback')
    (hcase : ∀ c ∈ cases', (f.after action).kind c = .qualifier .piece)
    (hfallback : ∀ c ∈ fallback', (f.after action).kind c = .qualifier .otherwise)
    (hlen : fallback'.length ≤ 1) : (f.after action).CasesLaidOut p cases' fallback' := by
  have he := effect hl ha
  have hform : ((f.after action).head p).form = .piecewise := (he.form h.has).trans h.form
  refine (casesLaidOut_iff_counted hsplit hcase hfallback hform hlen).2 ?_
  refine he.counted_of_has hl h.has (casesFirst_iff.1 h.casesFirst).2.1 fun n kind hn hm => ?_
  exact hkind n kind hn (hl.mem_of_parent hm.1)

/-! ### Adding to a `piecewise` -/

/-- Of its children, those leave that are put into what is added. -/
theorem children_wrap (hl : f.Linked) (q : Qualifier) :
    (f.wrap q v).children p = (f.children p).filter (· ≠ v) := by
  rw [Forest.children_wrap hl h.has, ← hl.children_detach,
    hl.children_detach_eq_filter (h.ne_placeholder hl)]

theorem children_wrapPair (hl : f.Linked) (hv : f.Has v) :
    (f.wrapPair v c).children p = (f.children p).filter (· ∉ [v, c]) := by
  have hw := wrapped_wrap hl hv .piece
  have hlw := hw.linked hl
  have hchildren := h.children_wrap (v := v) hl .piece
  have hne : ∀ d ∈ (f.wrap .piece v).children p, d ≠ .placeholder := by
    rw [hchildren]
    exact fun d hd => h.ne_placeholder hl d (List.mem_of_mem_filter hd)
  rw [wrapPair, (rehung_link (has_detach.2 hw.has) _ c).children,
    if_neg (ne_next_of_has h.has), hlw.children_detach_eq_filter hne, hchildren,
    List.filter_filter]
  exact List.filter_congr fun d _ => by simp [and_comm]

/-- In a forest that some steps lead to, of the children those are left that a filter keeps. -/
theorem kind_filter {S : NodeId → Prop} (hl : f.Linked) (hs : f.Steps S g) (keep : NodeId → Bool) :
    (∀ c ∈ cases.filter keep, g.kind c = .qualifier .piece) ∧
      ∀ c ∈ fallback.filter keep, g.kind c = .qualifier .otherwise := by
  have hhas (c : NodeId) (hc : c ∈ cases ++ fallback) : f.Has c := hl.has_of_mem (h.children ▸ hc)
  refine ⟨fun c hc => ?_, fun c hc => ?_⟩
  · have hc := List.mem_of_mem_filter hc
    rw [hs.kind (hhas c (List.mem_append_left _ hc)), h.kind_case c hc]
  · have hc := List.mem_of_mem_filter hc
    rw [hs.kind (hhas c (List.mem_append_right _ hc)), h.kind_fallback c hc]

/-- A new case goes behind all others. -/
theorem addCase (hl : f.Linked) (ha : f.Admits (.addCase p v c))
    (hok : ((Edit.addCase p v c).run f).1 = .ok ()) :
    (f.after (.addCase p v c)).CasesLaidOut p (cases.filter (· ∉ [v, c]) ++ [f.next])
      (fallback.filter (· ∉ [v, c])) := by
  have hv : f.Has v := ha v (by simp [Action.nodes])
  have hc : f.Has c := ha c (by simp [Action.nodes])
  have hadopt : f.adoptFault? p v = none ∧ f.adoptFault? p c = none := by
    rw [Edit.run_addCase_eq, h.caseCount] at hok
    cases hav : f.adoptFault? p v with
    | some fault => rw [hav] at hok; cases hok
    | none =>
      cases hac : f.adoptFault? p c with
      | some fault => rw [hav, hac] at hok; cases hok
      | none => exact ⟨rfl, rfl⟩
  have hw := wrapped_wrapPair hl hv hc
  have hwp := hw.steps.has h.has
  have hsplit : (f.wrapPair v c).children p
      = cases.filter (· ∉ [v, c]) ++ fallback.filter (· ∉ [v, c]) := by
    rw [h.children_wrapPair hl hv, h.children, List.filter_append]
  obtain ⟨hcase, hfallback⟩ := h.kind_filter hl hw.steps (· ∉ [v, c])
  have hplace : ((f.wrapPair v c).fallbackPosition p).getD ((f.wrapPair v c).children p).length
      = (cases.filter (· ∉ [v, c])).length := by
    rw [fallbackPosition_of_cases hsplit hcase hfallback, hsplit]
    split_ifs with hnil
    · rw [hnil, List.append_nil]
      rfl
    · rfl
  have hr := rehung_link hwp (cases.filter (· ∉ [v, c])).length f.next
  have hafter : f.after (.addCase p v c)
      = (f.wrapPair v c).link p (cases.filter (· ∉ [v, c])).length f.next := by
    rw [after_map rfl, Edit.run_addCase hl h.has hv hc h.caseCount hadopt.1 hadopt.2, hplace]
  have hkind (d : NodeId) : (f.after (.addCase p v c)).kind d = (f.wrapPair v c).kind d := by
    rw [hafter, hr.kind]
  refine h.after hl ha (fun _ _ heq => Action.noConfusion heq) ?_ (fun d hd => ?_)
    (fun d hd => ?_) ?_
  · rw [hafter, hr.children, if_pos rfl, hsplit, insertIdx_length_append, List.append_assoc]
    rfl
  · rw [hkind]
    rcases List.mem_append.1 hd with hd | hd
    · exact hcase d hd
    · rw [List.mem_singleton.1 hd, kind, hw.head]
      rfl
  · rw [hkind]
    exact hfallback d hd
  · exact Nat.le_trans (List.length_filter_le _ _) h.length_fallback

/-- A new fallback goes behind the cases, in the place of the old one. -/
theorem setFallback (hl : f.Linked) (ha : f.Admits (.setFallback p v))
    (hok : ((Edit.setFallback p v).run f).1 = .ok ()) :
    (f.after (.setFallback p v)).CasesLaidOut p (cases.filter (· ≠ v)) [f.next] ∧
      (f.after (.setFallback p v)).children f.next = [v] := by
  have hv : f.Has v := ha v (by simp [Action.nodes])
  have hadopt : f.adoptFault? p v = none := by
    rw [Edit.run_setFallback_eq, h.caseCount] at hok
    cases hav : f.adoptFault? p v with
    | some fault => rw [hav] at hok; cases hok
    | none => rfl
  have hw := wrapped_wrap hl hv .otherwise
  have hwp := hw.steps.has h.has
  have hsplit : (f.wrap .otherwise v).children p
      = cases.filter (· ≠ v) ++ fallback.filter (· ≠ v) := by
    rw [h.children_wrap hl, h.children, List.filter_append]
  obtain ⟨hcase, hfallback⟩ := h.kind_filter hl hw.steps (· ≠ v)
  have hplace := fallbackPosition_of_cases hsplit hcase hfallback
  have hlen : (fallback.filter (· ≠ v)).length ≤ 1 :=
    Nat.le_trans (List.length_filter_le _ _) h.length_fallback
  -- either way only the list of the children of the `piecewise` is changed
  have hafter : (∀ d, (f.after (.setFallback p v)).kind d = (f.wrap .otherwise v).kind d) ∧
      ∀ d, (f.after (.setFallback p v)).children d
        = if d = p then cases.filter (· ≠ v) ++ [f.next] else (f.wrap .otherwise v).children d := by
    rw [after_map rfl]
    rcases Edit.run_setFallback hl h.has hv h.caseCount hadopt with
      ⟨hnone, hrun⟩ | ⟨i, old, hi, hold, hrun⟩
    · have hnil : fallback.filter (· ≠ v) = [] := by
        by_contra hne
        rw [hplace, if_neg hne] at hnone
        cases hnone
      have hr := rehung_link hwp ((f.wrap .otherwise v).children p).length f.next
      rw [hrun]
      refine ⟨hr.kind, fun d => ?_⟩
      rw [hr.children, List.insertIdx_length_self, hsplit, hnil, List.append_nil]
    · have hne : fallback.filter (· ≠ v) ≠ [] := by
        intro hnil
        rw [hplace, if_pos hnil] at hi
        cases hi
      rw [hplace, if_neg hne] at hi
      cases hi
      obtain ⟨b, hb⟩ := List.length_eq_one_iff.1
        (Nat.le_antisymm hlen (List.length_pos_iff.2 hne))
      have hu := rehung_unlink hwp (cases.filter (· ≠ v)).length old
      have hr := rehung_link (f := (f.wrap .otherwise v).unlink p (cases.filter (· ≠ v)).length old)
        (has_unlink.2 hwp) (cases.filter (· ≠ v)).length f.next
      rw [hrun]
      refine ⟨fun d => (hr.kind d).trans (hu.kind d), fun d => ?_⟩
      rw [hr.children, hu.children, hu.children, if_pos rfl, hsplit, hb,
        List.eraseIdx_append_of_length_le (Nat.le_refl _), Nat.sub_self, List.eraseIdx_cons_zero,
        List.append_nil, List.insertIdx_length_self]
      split_ifs <;> rfl
  refine ⟨h.after hl ha (fun _ _ heq => Action.noConfusion heq) ?_ (fun d hd => ?_)
    (fun d hd => ?_) (Nat.le_refl 1), ?_⟩
  · rw [hafter.2, if_pos rfl]
  · rw [hafter.1]
    exact hcase d hd
  · rw [hafter.1, List.mem_singleton.1 hd, kind, hw.head]
    rfl
  · rw [hafter.2, if_neg (ne_next_of_has h.has).symm, children_wrap_next hl]

end CasesLaidOut

/-! ### Along a run -/

theorem places (hl : f.Linked) (ha : f.Admits action) : Places p f action := by
  refine fun cases fallback h => ⟨?_, ?_⟩
  · rintro v c rfl hok
    exact ⟨f.not_has_next, h.addCase hl ha hok⟩
  · rintro v rfl hok
    exact ⟨f.not_has_next, h.setFallback hl ha hok⟩

/-- An action that tends a `piecewise` keeps its layout. -/
theorem casesFirst_after (hf : f.Reachable) (ht : TendsCases p f action) (h : f.CasesFirst p) :
    (f.after action).CasesFirst p := by
  have hl := hf.linked
  obtain ⟨ha, hwhat, hkinds⟩ := ht
  have hsublist (hs : ((f.after action).children p).Sublist (f.children p)) :
      (f.after action).CasesFirst p := by
    obtain ⟨hform, hcounted, hparted⟩ := casesFirst_iff.1 h
    obtain ⟨cases, fallback, h⟩ := h
    have he := effect hl ha
    have hkind (c : NodeId) (hc : c ∈ f.children p) : (f.after action).kind c = f.kind c :=
      he.kind (hl.has_of_mem hc) (hkinds c hc)
    refine casesFirst_iff.2 ⟨(he.form h.has).trans hform, ?_, ?_⟩
    · exact he.counted_of_has hl h.has hcounted fun n kind hn hm =>
        hkinds n (hl.mem_of_parent hm.1) kind hn
    · exact (hparted.mono (fun c hc hp => (hkind c hc).trans hp)
        fun c hc hp => (hkind c hc).trans hp).sublist hs
  rcases hwhat with ⟨v, c, rfl⟩ | ⟨v, rfl⟩ | ⟨i, rfl⟩ | hs
  · cases hr : ((Edit.addCase p v c).run f).1 with
    | error fault =>
      have hsame := addCase_of_error hl (ha p (by simp [Action.nodes])) (ha v (by simp [Action.nodes]))
        (ha c (by simp [Action.nodes])) hr
      rwa [after_map rfl, hsame]
    | ok _ =>
      obtain ⟨cases, fallback, h⟩ := h
      exact (h.addCase hl ha hr).casesFirst
  · cases hr : ((Edit.setFallback p v).run f).1 with
    | error fault =>
      have hsame := setFallback_of_error hl (ha p (by simp [Action.nodes]))
        (ha v (by simp [Action.nodes])) hr
      rwa [after_map rfl, hsame]
    | ok _ =>
      obtain ⟨cases, fallback, h⟩ := h
      exact (h.setFallback hl ha hr).1.casesFirst
  · obtain ⟨cases, fallback, h⟩ := h
    exact hsublist (children_removeAt_sublist h.has i)
  · exact hsublist hs

/-- Along a run that tends a `piecewise`, it always holds its cases and then at most one fallback, and
counts them rightly; each new case comes behind the others, and each new fallback is the last child and
holds what was given. -/
theorem casesFirst_of_tends (hf : f.Reachable) (h : f.CasesFirst p)
    (ht : f.Along (TendsCases p) actions) :
    f.Throughout (fun f => f.CasesFirst p) actions ∧ f.Along (Places p) actions :=
  ⟨throughout_of_along casesFirst_after (fun ht => ht.1) hf ht h,
    along_of_along (fun hf ht => places hf.linked ht.1) (fun ht => ht.1) hf ht⟩

theorem casesFirst_of_children_nil (hf : f.Reachable) (hform : (f.head p).form = .piecewise)
    (hnil : f.children p = []) : f.CasesFirst p :=
  casesFirst_iff.2 ⟨hform, hf.counted_of_children_nil hnil, [], [], hnil, nofun, nofun,
    Nat.zero_le 1⟩

/-- Makes a `piecewise`, node one, and three names. -/
def lonePiecewise : List Action :=
  [.plant (.ofKind .piecewise), .plant (.identifier "x"), .plant (.identifier "y"),
    .plant (.identifier "z")]

/-- The fallback is set first, a case comes before it, and then the fallback is set to itself. -/
theorem casesFirst_fallback :
    let f := start.run lonePiecewise
    let actions := [.setFallback ⟨1⟩ ⟨2⟩, .addCase ⟨1⟩ ⟨3⟩ ⟨4⟩, .setFallback ⟨1⟩ ⟨5⟩]
    f.Reachable ∧ f.CasesFirst ⟨1⟩ ∧ f.Along (TendsCases ⟨1⟩) actions ∧
      f.Throughout (fun f => f.CasesFirst ⟨1⟩) actions ∧ f.Along (Places ⟨1⟩) actions ∧
      (f.run actions).children ⟨1⟩ = [⟨6⟩, ⟨7⟩] ∧ (f.run actions).children ⟨7⟩ = [⟨5⟩] := by
  have ha : start.Along Admits lonePiecewise := by decide
  have hf := Reachable.start.run ha
  have h : (start.run lonePiecewise).CasesFirst ⟨1⟩ :=
    casesFirst_of_children_nil hf (by decide) (by decide)
  have ht : (start.run lonePiecewise).Along (TendsCases ⟨1⟩)
      [.setFallback ⟨1⟩ ⟨2⟩, .addCase ⟨1⟩ ⟨3⟩ ⟨4⟩, .setFallback ⟨1⟩ ⟨5⟩] :=
    ⟨⟨by decide +kernel, .inr (.inl ⟨_, rfl⟩), nofun⟩, ⟨by decide +kernel, .inl ⟨_, _, rfl⟩, nofun⟩,
      ⟨by decide +kernel, .inr (.inl ⟨_, rfl⟩), nofun⟩, trivial⟩
  have hrun := casesFirst_of_tends hf h ht
  exact ⟨hf, h, ht, hrun.1, hrun.2, by decide +kernel, by decide +kernel⟩

end Forest

end MathTree
