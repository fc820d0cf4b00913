import MathTree.Proofs.Action.Kinds
import MathTree.Proofs.Action.Shown
import MathTree.Proofs.Render.Reads
import MathTree.Proofs.Render.Visitor

/-!
# Faults of compiling

In every forest that can be reached the form of each node allows its kind, so that a node which cannot
be read is to blame itself: it has not as many children as it needs, or it is strict and lacks a value
(`Forest.Blames`).  A visitor may pass the faults of its operands on and have none of its own; then
every fault that it comes to is of these two sorts, and a node that was visited is to blame for it
(`Reachable.faults_of_passesOn`).
-/

namespace MathTree

/-! ### Visitors that pass faults on -/

section

variable {σ α : Type}

/-- The faults that a script has been told of after one more outcome. -/
def heard (told : List Fault) : Except Fault α → List Fault
  | .ok _ => told
  | .error fault => fault :: told

/-- Whether a script fails only with a fault that it has been told of. -/
def Script.PassesOn : List Fault → Script σ α → Prop
  | told, .done outcome _ => ∀ fault, outcome = .error fault → fault ∈ told
  | told, .compile _ _ next => ∀ outcome s, (next outcome s).PassesOn (heard told outcome)

/-- Whether what a visitor does at a node fails only with a fault of a node that it asked for. -/
def Visitor.PassesOn (V : Visitor σ α) : Prop := ∀ r s, (V r s).PassesOn []

/-- Adds up what comes of some nodes, up to the first that fails. -/
def Script.total : List NodeId → Nat → σ → Script σ Nat
  | [], total, s => .done (.ok total) s
  | n :: ns, total, s => .compile n s fun
    | .ok count, s => Script.total ns (total + count) s
    | .error fault, s => .done (.error fault) s

/-- Counts the nodes that are visited. -/
def sizing : Visitor Unit Nat := fun r s => Script.total r.operands 1 s

theorem passesOn_sizing : sizing.PassesOn := by
  have htotal (ns : List NodeId) (total : Nat) (s : Unit) (told : List Fault) :
      (Script.total ns total s).PassesOn told := by
    induction ns generalizing total s told with
    | nil =>
      intro fault he
      cases he
    | cons n ns ih =>
      rintro (fault | count) s
      · intro _ he
        cases he
        exact List.mem_cons_self
      · exact ih (total + count) s told
  exact fun r s => htotal r.operands 1 s []

end

namespace Forest

variable {σ α : Type} {f : Forest} {V : Visitor σ α}

/-- Whether a node is at fault: it has not as many children as it needs, or it is strict and lacks a
value. -/
def Blames (f : Forest) (n : NodeId) (fault : Fault) : Prop :=
  (∃ k ∈ (f.head n).operandCount?, f.childCount n ≠ k ∧
      fault = .arity (f.kind n) k (f.childCount n)) ∨
    ∃ field, (f.head n).strict ∧ (f.head n).Lacks field ∧ fault = .unset field (f.kind n)

theorem length_slots (f : Forest) (n : NodeId) :
    ((f.shown n).map f.childSlot).length = f.childCount n := by
  rw [List.length_map, length_shown]

/-- A sound node that cannot be read is at fault itself. -/
theorem blames_of_reading? {n : NodeId} {fault : Fault} (hs : (f.head n).Sound)
    (hr : f.reading? n = .error fault) : f.Blames n fault := by
  have hreads : (f.head n).Reads _ _ (f.reading? n) := hs.reads
  rw [hr] at hreads
  cases hreads with
  | miscounted hk hcount _ =>
    rw [length_slots] at hcount ⊢
    exact .inl ⟨_, hk, hcount, rfl⟩
  | lacking _ _ _ hstrict hlacks => exact .inr ⟨_, hstrict, hlacks, rfl⟩

/-- Whether one of some visits was to a node that cannot be read, over a fault. -/
def Refuses (f : Forest) (visits : List (Visit α)) (fault : Fault) : Prop :=
  ∃ v ∈ visits, v.outcome = .error fault ∧ f.reading? v.node = .error fault

theorem Refuses.mono {visits visits' : List (Visit α)} {fault : Fault}
    (h : f.Refuses visits fault) (hsub : visits ⊆ visits') : f.Refuses visits' fault := by
  obtain ⟨v, hv, houtcome, hread⟩ := h
  exact ⟨v, hsub hv, houtcome, hread⟩

/-- If a visitor passes faults on, each fault of a run was told before or comes from a node that was
visited and cannot be read. -/
theorem Follows.refuses (hV : V.PassesOn) {script : Script σ α} {visits : List (Visit α)}
    {outcome : Except Fault α} {s' : σ} (h : f.Follows V script visits outcome s')
    {told : List Fault} (hscript : script.PassesOn told) :
    (∀ v ∈ visits, ∀ fault, v.outcome = .error fault → f.Refuses visits fault) ∧
      ∀ fault, outcome = .error fault → fault ∈ told ∨ f.Refuses visits fault := by
  induction h generalizing told with
  | done => exact ⟨fun v hv => absurd hv List.not_mem_nil, fun fault he => .inl (hscript fault he)⟩
  | @refused n s _ fault _ _ later hread _ ih =>
    have hself : f.Refuses (⟨n, .error fault⟩ :: later) fault :=
      ⟨_, List.mem_cons_self, rfl, hread⟩
    have hsub : later ⊆ (⟨n, .error fault⟩ : Visit α) :: later := List.subset_cons_self ..
    obtain ⟨hlater, houtcome⟩ := ih (hscript (.error fault) s)
    refine ⟨fun v hv fault' he => ?_, fun fault' he => ?_⟩
    · rcases List.mem_cons.1 hv with rfl | hv
      · cases he
        exact hself
      · exact (hlater v hv fault' he).mono hsub
    · rcases houtcome fault' he with htold | hrefuses
      · rcases List.mem_cons.1 htold with rfl | htold
        · exact .inr hself
        · exact .inl htold
      · exact .inr (hrefuses.mono hsub)
  | @formed n s t _ r result _ _ inner later _ _ _ ihmethod ih =>
    -- a method starts without having been told of anything
    obtain ⟨hbelow, hresult⟩ := ihmethod (hV r s)
    have hmethod (fault : Fault) (he : result = .error fault) :
        f.Refuses (⟨n, result⟩ :: (inner ++ later)) fault :=
      ((hresult fault he).resolve_left List.not_mem_nil).mono (inner_subset ..)
    obtain ⟨hrest, houtcome⟩ := ih (hscript result t)
    refine ⟨fun v hv fault he => ?_, fun fault he => ?_⟩
    · rcases List.mem_cons.1 hv with rfl | hv
      · exact hmethod fault he
      rcases List.mem_append.1 hv with hv | hv
      · exact (hbelow v hv fault he).mono (inner_subset ..)
      · exact (hrest v hv fault he).mono (later_subset ..)
    · rcases houtcome fault he with htold | hrefuses
      · cases result with
        | ok => exact .inl htold
        | error first =>
          rcases List.mem_cons.1 htold with rfl | htold
          · exact .inr (hmethod fault rfl)
          · exact .inl htold
      · exact .inr (hrefuses.mono (later_subset ..))

/-- The form of every node allows its kind.  So a visitor that fails only with faults of the nodes it
asks for comes to no fault but that of a node which has not as many children as it needs, or which is
strict and lacks a value. -/
theorem Reachable.faults_of_passesOn (hf : f.Reachable) :
    (∀ n, (f.head n).form.allows (f.kind n)) ∧
      ∀ {σ α : Type} (V : Visitor σ α), V.PassesOn → ∀ {n s visits outcome s'},
        f.Compiles V n s visits outcome s' → ⟨n, outcome⟩ ∈ visits ∧
          ∀ v ∈ visits, ∀ fault, v.outcome = .error fault →
            ∃ w ∈ visits, w.outcome = .error fault ∧ f.Blames w.node fault := by
  refine ⟨hf.sound, fun {τ β} V hV n s visits outcome s' h => ⟨h.mem, fun v hv fault he => ?_⟩⟩
  have hscript : (Script.compile n s Script.done : Script τ β).PassesOn [] := by
    rintro _ t fault rfl
    exact List.mem_cons_self
  obtain ⟨w, hw, houtcome, hread⟩ := (h.refuses hV hscript).1 v hv fault he
  exact ⟨w, hw, houtcome, blames_of_reading? (hf.sound w.node) hread⟩

/-- A sum, node one, of a number and a name that is not set. -/
def namelessSum : List Action :=
  [.plant (.ofKind .plus), .plant (.integer 3), .append ⟨1⟩ ⟨2⟩, .plant (.ofKind .name),
    .append ⟨1⟩ ⟨3⟩]

theorem faults_of_passesOn_namelessSum :
    let f := start.run namelessSum
    let visits : List (Visit Nat) := [⟨⟨1⟩, .error (.unset .name .name)⟩, ⟨⟨2⟩, .ok 1⟩,
      ⟨⟨3⟩, .error (.unset .name .name)⟩]
    (f.Reachable ∧ sizing.PassesOn ∧
        f.Compiles sizing ⟨1⟩ () visits (.error (.unset .name .name)) ()) ∧
      ∃ w ∈ visits, w.outcome = .error (.unset .name .name) ∧ f.Blames w.node (.unset .name .name) := by
  intro f visits
  have hf : f.Reachable := Reachable.start.run (by decide +kernel)
  have hname : f.reading? ⟨3⟩ = .error (.unset .name .name) := rfl
  have hinteger : f.reading? ⟨2⟩ = .ok (.integer 3 none) := rfl
  have hsum : f.reading? ⟨1⟩ = .ok (.sum [⟨2⟩, ⟨3⟩]) := rfl
  let fault := Fault.unset .name .name
  have hlast : f.Follows sizing (Script.total [⟨3⟩] 2 ()) [⟨⟨3⟩, .error fault⟩] (.error fault) () :=
    .refused hname (.done ..)
  have hmethod : f.Follows sizing (Script.total [⟨2⟩, ⟨3⟩] 1 ())
      (⟨⟨2⟩, .ok 1⟩ :: ([] ++ [⟨⟨3⟩, .error fault⟩])) (.error fault) () :=
    .formed hinteger (.done (.ok 1) ()) hlast
  have hrun : f.Compiles sizing ⟨1⟩ () visits (.error fault) () := .formed hsum hmethod (.done ..)
  obtain ⟨hmem, hfaults⟩ := (hf.faults_of_passesOn).2 sizing passesOn_sizing hrun
  exact ⟨⟨hf, passesOn_sizing, hrun⟩, hfaults _ hmem _ rfl⟩

end Forest

end MathTree
