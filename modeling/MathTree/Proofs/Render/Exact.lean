import MathTree.Proofs.Render.Faults
import MathTree.Render.Formula

/-!
# Operands that are left out

A node that needs a number of operands is refused if it shows another number of children, and hands on
every operand if it shows that many: but for two exceptions, both of lenient nodes.  One that takes a
single operand takes the first child and does not look at the others, and a root or a logarithm takes
the first content of the qualifier that it opens (`Forest.LeavesOut`).  Every other node that is
visited is exact or refused, and none of these is (`Reachable.settles_iff_not_leavesOut`).
-/

namespace MathTree

namespace Forest

variable {σ α : Type} {f : Forest} {n : NodeId} {V : Visitor σ α}

/-- Whether a node shows as many children as it needs operands. -/
def Exact (f : Forest) (n : NodeId) : Prop := ∀ k ∈ (f.head n).operandCount?, f.childCount n = k

/-- Whether a node opens a child in its first place: a qualifier that shows what it holds. -/
def Opens (f : Forest) (n q : NodeId) : Prop :=
  (f.head n).OpensFirst ∧ (f.kind q).isTransparent ∧ f.shown q ≠ []

instance (f : Forest) (n q : NodeId) : Decidable (f.Opens n q) :=
  inferInstanceAs (Decidable (_ ∧ _ ∧ _))

/-- The operands that can be seen of a node: the children that it shows, and for one that it opens all
that this one shows. -/
def visible (f : Forest) (n : NodeId) : List NodeId :=
  match f.shown n with
  | [] => []
  | q :: others => (if f.Opens n q then f.shown q else [q]) ++ others

/-- Whether all operands that can be seen of a node are handed on, each in its place.  The degree two
says that a root is a square root, and is not handed on. -/
def HandsOnAll (f : Forest) (n : NodeId) : Prop :=
  ∀ r, f.reading? n = .ok r → r.operands = f.visible n ∨
    ∃ degree radicand, (f.head degree).isLiteral 2 ∧ f.visible n = [degree, radicand] ∧
      r = .squareRoot radicand

/-- Whether a node leaves out an operand that can be seen: it takes a single operand and shows more
children, or it opens a qualifier that shows more than one. -/
def LeavesOut (f : Forest) (n : NodeId) : Prop :=
  (f.head n).form = .unary ∧ 1 < f.childCount n ∨
    ∃ q x, f.shown n = [q, x] ∧ f.Opens n q ∧ 1 < f.childCount q

/-- Whether a visit came to what it should: the node has the operands that it needs and hands on all,
or it is refused for their number. -/
def Settles (f : Forest) (v : Visit α) : Prop :=
  f.Exact v.node ∧ f.HandsOnAll v.node ∨
    ∃ k ∈ (f.head v.node).operandCount?, f.childCount v.node ≠ k ∧
      f.reading? v.node = .error (.arity (f.kind v.node) k (f.childCount v.node)) ∧
      v.outcome = .error (.arity (f.kind v.node) k (f.childCount v.node))

/-! ### What a node hands on -/

theorem visible_of_not_opens (h : ∀ q ∈ (f.shown n).head?, ¬ f.Opens n q) : f.visible n = f.shown n := by
  unfold visible
  cases hshown : f.shown n with
  | nil => rfl
  | cons q others =>
    rw [hshown] at h
    simp [if_neg (h q rfl)]

theorem content_of_not_opens {q : NodeId} (hopens : (f.head n).OpensFirst) (h : ¬ f.Opens n q) :
    f.content q = q := by
  unfold content
  split_ifs with hkind
  · have hnone : f.shown q = [] := by
      by_contra hne
      exact h ⟨hopens, hkind, hne⟩
    rw [hnone]
    rfl
  · rfl

/-- The content of a qualifier that is opened is the first child that it shows. -/
theorem shown_of_opens {q : NodeId} (h : f.Opens n q) :
    ∃ others, f.shown q = f.content q :: others ∧ f.childCount q = others.length + 1 := by
  obtain ⟨-, hkind, hne⟩ := h
  obtain ⟨c, others, hshown⟩ := List.exists_cons_of_ne_nil hne
  refine ⟨others, ?_, ?_⟩
  · rw [content, if_pos hkind, hshown]
    rfl
  · rw [← length_shown, hshown, List.length_cons]

section

variable {q x : NodeId} (hshown : f.shown n = [q, x])
include hshown

/-- A node that opens its first child sees what it hands on, unless it leaves some of it out. -/
theorem visible_of_not_leavesOut (hopens : (f.head n).OpensFirst) (h : ¬ f.LeavesOut n) :
    f.visible n = [f.content q, x] := by
  rw [visible, hshown]
  dsimp only
  split_ifs with hq
  · obtain ⟨others, hothers, hcount⟩ := shown_of_opens hq
    have hnone : others = [] := by
      by_contra hne
      have hpos := List.length_pos_iff.2 hne
      exact h (.inr ⟨q, x, hshown, hq, by omega⟩)
    rw [hothers, hnone]
    rfl
  · rw [content_of_not_opens hopens hq]
    rfl

theorem length_visible_of_leavesOut (hform : (f.head n).form ≠ .unary) (h : f.LeavesOut n) :
    2 < (f.visible n).length := by
  rcases h with ⟨hunary, -⟩ | ⟨q', x', hshown', hq, hcount⟩
  · exact absurd hunary hform
  · cases hshown.symm.trans hshown'
    rw [visible, hshown]
    simp only [if_pos hq, List.length_append, List.length_singleton, length_shown]
    omega

end

/-! ### One node -/

theorem not_leavesOut_of_form (hform : (f.head n).form ≠ .unary) (hopens : ¬ (f.head n).OpensFirst) :
    ¬ f.LeavesOut n := by
  rintro (⟨hunary, -⟩ | ⟨q, x, -, hq, -⟩)
  · exact hform hunary
  · exact hopens hq.1

/-- A node that takes two operands and opens the first hands on all unless it leaves something out. -/
theorem handsOnAll_iff {q x : NodeId} {r : Reading NodeId} (hopens : (f.head n).OpensFirst)
    (hform : (f.head n).form ≠ .unary) (hshown : f.shown n = [q, x]) (hr : f.reading? n = .ok r)
    (htaken : r.operands = [f.content q, x] ∨
      (f.head (f.content q)).isLiteral 2 ∧ r = .squareRoot x) :
    f.HandsOnAll n ↔ ¬ f.LeavesOut n := by
  constructor
  · intro hall hleaves
    have hlong := length_visible_of_leavesOut hshown hform hleaves
    rcases hall r hr with hsame | ⟨degree, radicand, -, hpair, -⟩
    · rw [← hsame] at hlong
      rcases htaken with htaken | ⟨-, rfl⟩
      · rw [htaken] at hlong
        exact absurd hlong (Nat.lt_irrefl 2)
      · exact absurd hlong (by simp [Reading.operands])
    · rw [hpair] at hlong
      exact absurd hlong (Nat.lt_irrefl 2)
  · intro hleaves r' hr'
    cases hr.symm.trans hr'
    rw [visible_of_not_leavesOut hshown hopens hleaves]
    rcases htaken with htaken | ⟨htwo, rfl⟩
    · exact .inl htaken
    · exact .inr ⟨f.content q, x, htwo, rfl, rfl⟩

/-- A node that leaves nothing out has the operands that it needs and hands on all, or is refused for
their number; one that leaves something out does neither. -/
theorem exact_or_refused_iff (hf : f.Linked) (hs : (f.head n).Sound) :
    (f.Exact n ∧ f.HandsOnAll n ∨ ∃ k ∈ (f.head n).operandCount?, f.childCount n ≠ k ∧
        f.reading? n = .error (.arity (f.kind n) k (f.childCount n))) ↔ ¬ f.LeavesOut n := by
  have hreads : (f.head n).Reads (fun m => (f.head m).isLiteral 2) ((f.shown n).map f.childSlot)
      (f.reading? n) := hs.reads
  have hbinary (hopens : (f.head n).OpensFirst) : (f.head n).form = .binary :=
    hs.form_of_opensFirst hopens
  cases hr : f.reading? n with
  | error fault =>
    rw [hr] at hreads
    cases hreads with
    | @miscounted k hk hcount hunary =>
      rw [length_slots] at hcount ⊢
      refine iff_of_true (.inr ⟨_, hk, hcount, rfl⟩) ?_
      rintro (⟨hform, hmany⟩ | ⟨q, x, hshown, hq, -⟩)
      · have hnone := congrArg List.length (hunary hform)
        rw [length_slots] at hnone
        exact absurd hmany (by simp [hnone])
      · have hpair : f.childCount n = 2 := by rw [← length_shown, hshown]; rfl
        simp [Head.operandCount?, hbinary hq.1, hpair] at hk hcount
        exact hcount hk
    | lacking hform hopens hcount hstrict hlacks =>
      rw [length_slots] at hcount
      refine iff_of_true (.inl ⟨hcount, fun r hr' => ?_⟩) (not_leavesOut_of_form hform hopens)
      cases hr.symm.trans hr'
  | ok r =>
    have hnot : ¬ ∃ k ∈ (f.head n).operandCount?, f.childCount n ≠ k ∧
        (.ok r : Except Fault _) = .error (.arity (f.kind n) k (f.childCount n)) := by
      rintro ⟨_, -, -, he⟩
      cases he
    rw [hr] at hreads
    rw [or_iff_left hnot]
    cases hreads with
    | value hleaf hnone =>
      have hshown : f.shown n = [] := by rw [shown, hf.leaf hleaf, List.take_nil]
      have hcount : f.Exact n := by simp [Exact, Head.operandCount?_of_isLeaf hleaf]
      refine iff_of_true ⟨hcount, fun r' hr' => ?_⟩ ?_
      · cases hr.symm.trans hr'
        exact .inl (by rw [visible, hshown, hnone])
      · rintro (⟨hform, -⟩ | ⟨q, x, hpair, -⟩)
        · exact Head.form_ne_unary_of_isLeaf hleaf hform
        · rw [hshown] at hpair
          cases hpair
    | all hform hcount hall =>
      rw [length_slots] at hcount
      have hexact : f.Exact n := hcount
      rw [and_iff_right hexact]
      by_cases hopens : (f.head n).OpensFirst
      · have hpair : (f.shown n).length = 2 := by
          rw [length_shown]
          exact hcount 2 (by simp [Head.operandCount?, hbinary hopens])
        obtain ⟨q, x, hshown⟩ := List.length_eq_two.1 hpair
        have htaken : r.operands = [f.content q, x] := by
          rw [hall, hshown, List.map_cons, Head.handed, if_pos hopens]
          rfl
        exact handsOnAll_iff hopens hform hshown hr (.inl htaken)
      · refine iff_of_true (fun r' hr' => ?_) (not_leavesOut_of_form hform hopens)
        cases hr.symm.trans hr'
        rw [hall, Head.handed_of_not_opensFirst hopens, itself_shown,
          visible_of_not_opens fun q _ hq => hopens hq.1]
        exact .inl rfl
    | @squareRoot degree radicand hkind hslots htwo =>
      have hopens : (f.head n).OpensFirst := .inl hkind
      obtain ⟨q, rest, hshown, rfl, hrest⟩ := List.map_eq_cons_iff.1 hslots
      obtain ⟨x, last, rfl, rfl, hlast⟩ := List.map_eq_cons_iff.1 hrest
      rw [List.map_eq_nil_iff.1 hlast] at hshown
      have hexact : f.Exact n := by
        simp [Exact, Head.operandCount?, hbinary hopens, ← length_shown, hshown]
      rw [and_iff_right hexact]
      exact handsOnAll_iff hopens (by simp [hbinary hopens]) hshown hr (.inr ⟨htwo, rfl⟩)
    | first hform hslots hfirst =>
      have hopens : ¬ (f.head n).OpensFirst := fun h => by
        rw [hbinary h] at hform
        cases hform
      obtain ⟨c, others, hshown, rfl, -⟩ := List.map_eq_cons_iff.1 hslots
      have hcount : f.childCount n = others.length + 1 := by
        rw [← length_shown, hshown, List.length_cons]
      have hexact : f.Exact n ↔ others = [] := by
        simp [Exact, Head.operandCount?, hform, hcount]
      have hleaves : f.LeavesOut n ↔ others ≠ [] := by
        rw [← List.length_pos_iff]
        refine ⟨?_, fun hpos => .inl ⟨hform, by omega⟩⟩
        rintro (⟨-, hmany⟩ | ⟨q, x, -, hq, -⟩)
        · omega
        · exact absurd hq.1 hopens
      rw [hexact, hleaves, not_not]
      refine and_iff_left_of_imp fun hnone r' hr' => ?_
      cases hr.symm.trans hr'
      rw [hfirst, visible_of_not_opens fun q _ hq => hopens hq.1, hshown, hnone]
      exact .inl rfl

end Forest

/-! ### Visitors that heed faults -/

section

variable {σ α : Type}

/-- Whether a script ends in a fault whatever it is told. -/
def Script.Fails : Script σ α → Prop
  | .done outcome _ => ∃ fault, outcome = .error fault
  | .compile _ _ next => ∀ outcome s, (next outcome s).Fails

/-- Whether a script fails once it is told of a fault. -/
def Script.Heeds : Script σ α → Prop
  | .done _ _ => True
  | .compile _ _ next =>
    (∀ fault s, (next (.error fault) s).Fails) ∧ ∀ a s, (next (.ok a) s).Heeds

/-- Whether what a visitor does at a node fails if a node that it asks for does. -/
def Visitor.Heeds (V : Visitor σ α) : Prop := ∀ r s, (V r s).Heeds

theorem heeds_sizing : sizing.Heeds := by
  have htotal (ns : List NodeId) (total : Nat) (s : Unit) : (Script.total ns total s).Heeds := by
    induction ns generalizing total s with
    | nil => trivial
    | cons n ns ih => exact ⟨fun fault _ => ⟨fault, rfl⟩, fun count s => ih ..⟩
  exact fun r s => htotal ..

end

namespace Forest

variable {σ α : Type} {f : Forest} {V : Visitor σ α} {script : Script σ α} {s' : σ}
  {visits : List (Visit α)} {outcome : Except Fault α}

theorem Follows.fails (h : f.Follows V script visits outcome s') (hfails : script.Fails) :
    ∃ fault, outcome = .error fault := by
  induction h with
  | done => exact hfails
  | refused _ _ ih => exact ih (hfails ..)
  | formed _ _ _ _ ih => exact ih (hfails ..)

/-- If a visitor heeds faults and succeeds, every visit did. -/
theorem Follows.succeeds (hV : V.Heeds) (h : f.Follows V script visits outcome s')
    (hscript : script.Heeds) (hok : ∃ a, outcome = .ok a) : ∀ v ∈ visits, ∃ a, v.outcome = .ok a := by
  induction h with
  | done => exact fun v hv => absurd hv List.not_mem_nil
  | refused _ rest =>
    obtain ⟨a, rfl⟩ := hok
    obtain ⟨_, he⟩ := rest.fails (hscript.1 ..)
    cases he
  | @formed n s t _ r result _ _ inner later _ _ rest ihmethod ih =>
    cases result with
    | error fault =>
      obtain ⟨a, rfl⟩ := hok
      obtain ⟨_, he⟩ := rest.fails (hscript.1 ..)
      cases he
    | ok a =>
      intro v hv
      rcases List.mem_cons.1 hv with rfl | hv
      · exact ⟨a, rfl⟩
      rcases List.mem_append.1 hv with hv | hv
      · exact ihmethod (hV r s) ⟨a, rfl⟩ v hv
      · exact ih (hscript.2 a t) hok v hv

/-- A visited node has the operands that it needs and hands on all, or is refused for their number,
just if it leaves nothing out.  So a visitor that heeds faults succeeds only over nodes which have the
operands that they need, provided that none of them leaves something out. -/
theorem Reachable.settles_iff_not_leavesOut (hf : f.Reachable) {n : NodeId} {s : σ}
    (h : f.Compiles V n s visits outcome s') :
    (⟨n, outcome⟩ ∈ visits ∧ ∀ v ∈ visits, f.Settles v ↔ ¬ f.LeavesOut v.node) ∧
      (V.Heeds → (∃ a, outcome = .ok a) →
        ((∀ v ∈ visits, f.Exact v.node ∧ f.HandsOnAll v.node) ↔
          ∀ v ∈ visits, ¬ f.LeavesOut v.node)) := by
  have hsettles (v : Visit α) (hv : v ∈ visits) : f.Settles v ↔ ¬ f.LeavesOut v.node := by
    rw [← exact_or_refused_iff hf.linked (hf.sound v.node), Settles]
    refine or_congr_right (exists_congr fun k => and_congr_right fun _ => and_congr_right fun _ => ?_)
    -- a node that cannot be read comes to its fault
    refine and_iff_left_of_imp fun hread => ?_
    rcases h.visit_cases v hv with ⟨fault, hfault, houtcome⟩ | ⟨r, _, _, _, hr, -⟩
    · cases hread.symm.trans hfault
      exact houtcome
    · cases hread.symm.trans hr
  refine ⟨⟨h.mem, hsettles⟩, fun hV hok => forall₂_congr fun v hv => ?_⟩
  have hscript : (Script.compile n s Script.done : Script σ α).Heeds :=
    ⟨fun fault _ => ⟨fault, rfl⟩, fun _ _ => trivial⟩
  obtain ⟨a, ha⟩ := h.succeeds hV hscript hok v hv
  rw [← hsettles v hv, Settles]
  refine (or_iff_left ?_).symm
  rintro ⟨_, -, -, -, he⟩
  cases ha.symm.trans he

/-- A lenient sine, node one, of two names. -/
def lenientSine : List Action :=
  [.plant (.ofKind (.elementary .sin)), .setStrict ⟨1⟩ false, .plant (.identifier "x"),
    .append ⟨1⟩ ⟨2⟩, .plant (.identifier "y"), .append ⟨1⟩ ⟨3⟩]

theorem settles_iff_not_leavesOut_lenientSine :
    let f := start.run lenientSine
    let visits : List (Visit Nat) := [⟨⟨1⟩, .ok 2⟩, ⟨⟨2⟩, .ok 1⟩]
    (f.Reachable ∧ f.Compiles sizing ⟨1⟩ () visits (.ok 2) () ∧ sizing.Heeds ∧
        f.LeavesOut ⟨1⟩) ∧
      (∀ v ∈ visits, f.Settles v ↔ ¬ f.LeavesOut v.node) ∧
      ¬ ∀ v ∈ visits, f.Exact v.node ∧ f.HandsOnAll v.node := by
  intro f visits
  have hf : f.Reachable := Reachable.start.run (by decide +kernel)
  have hname : f.reading? ⟨2⟩ = .ok (.identifier "x") := rfl
  have hsine : f.reading? ⟨1⟩ = .ok (.elementary .sin ⟨2⟩) := rfl
  have hmethod : f.Follows sizing (Script.total [⟨2⟩] 1 ()) (⟨⟨2⟩, .ok 1⟩ :: ([] ++ [])) (.ok 2) () :=
    .formed hname (.done (.ok 1) ()) (.done (.ok 2) ())
  have hrun : f.Compiles sizing ⟨1⟩ () visits (.ok 2) () := .formed hsine hmethod (.done ..)
  have hleaves : f.LeavesOut ⟨1⟩ := .inl (by decide +kernel)
  obtain ⟨⟨hmem, hsettles⟩, hexact⟩ := hf.settles_iff_not_leavesOut hrun
  refine ⟨⟨hf, hrun, heeds_sizing, hleaves⟩, hsettles, fun hall => ?_⟩
  exact (hexact heeds_sizing ⟨2, rfl⟩).1 hall _ hmem hleaves

/-- Not every tree that is rendered has the operands that its nodes need: a lenient sine of two names
becomes the sine of the first. -/
theorem exists_inexact_of_renders :
    ¬ ∀ (f : Forest), f.Reachable → ∀ (V : Visitor Unit String) (n : NodeId)
      (visits : List (Visit String)) (text : String), f.Compiles V n () visits (.ok text) () →
        ∀ v ∈ visits, f.Exact v.node := by
  intro hexact
  let f := start.run lenientSine
  have hf : f.Reachable := Reachable.start.run (by decide +kernel)
  have htext : (f.tree ⟨1⟩).formula = .ok "sin(x)" := by decide +kernel
  obtain ⟨visits, hrun⟩ := (hf.linked.compiles_renderer_iff (R := Formula.renderer {}) rfl
    (n := ⟨1⟩) (by decide +kernel)).2 htext
  have hone := hexact f hf _ _ visits _ hrun _ hrun.mem 1 (by decide +kernel)
  exact absurd hone (by decide +kernel)

end Forest

end MathTree
