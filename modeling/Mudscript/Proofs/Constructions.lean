import Mudscript.Proofs.Changes
import Mudscript.Proofs.PrivateChains
import Mudscript.Proofs.Returns

/-!
# Constructions

The object of a unit is made by its first instruction, in slot 0 of the call. Nothing puts another value
there as long as the call is under way: the unit itself does not assign to the slot, calls above it have
other slots, and no function that has captured the slot assigns to it. So what the call returns is the
object it has made, and by then the library knows the unit under the name of the object.
-/

namespace Mudscript

open Machine Exec

variable {position : Nat}

variable {past : Moment} {L : Layouts} {a : Activity} {m m' m1 : Machine} {f g : Frame} {rest below : List Frame}
  {i : Instruction} {c : Closure} {base : Nat} {o : ObjectId} {p : Program}

theorem Closure.Valid.object_first (h : c.Valid m.moment) {offset index : Nat}
    (hat : c.routine.code.At offset (.object index)) : offset = 0 := by
  obtain ⟨unit, hunit, hwithin⟩ := h.compiled
  have hkind : c.routine.kind = .object := by
    obtain ⟨shape, hlayout⟩ := hunit.verified _ hwithin
    exact (hlayout.allowed _ _ hat).values
  rcases hunit with ⟨name, source, hscript⟩ | ⟨path, source, hobject⟩
  · exact absurd hkind (kind_ne_of_compileScript hscript hwithin)
  · have hmakes := makes_of_compileObject hobject
    cases hwithin with
    | self => exact hmakes.once _ _ hat
    | inside hconstant hwithin => exact absurd hkind (hmakes.nested _ _ hconstant _ hwithin)

theorem Machine.Fetches.object_eq (h : m.Fetches past L a m1 f rest i)
    (hperforms : m1.Performs f i (.ok () m')) (hg : g ∈ m1.calls) (hstays : i = .ret → g ∈ rest)
    (hobject : g.IsObject) (hposition : g.position ≠ 0) : m'.stack[g.base]? = m1.stack[g.base]? := by
  have hready := h.ready
  by_cases hret : i = .ret
  · subst hret
    exact h.below_eq hperforms (hready.arranged.base_lt h.calls_eq (hstays rfl))
  · refine hperforms.slot_eq hready.sound.cells (hready.avoids h.calls_eq h.instruction hret hg hobject ?_)
    rintro name rfl rfl
    exact hposition ((hready.closure_valid h.calls_eq).object_first h.instruction)

/-- The call of a unit is under way, above calls that wait for it. If it has made its object, that is one of
those made since there were `n` of them. -/
structure Machine.Constructs (c : Closure) (base : Nat) (below : List Frame) (n : Nat) (m : Machine) : Prop where
  calls : ∃ inner position, m.calls = inner ++ ⟨c, position, base⟩ :: below ∧
    (position ≠ 0 → ∃ o, m.stack[base]? = some (.object o) ∧ n ≤ o)
  size_le : n ≤ m.objects.size

structure Machine.Constructed (c : Closure) (base : Nat) (below : List Frame) (n : Nat) (m : Machine) : Prop where
  calls_eq : m.calls = below
  result : ∃ o name p, m.stack[base]? = some (.object o) ∧ n ≤ o ∧ m.objects.kinship.Named o name ∧
    m.library.programs[name]? = some p ∧ p.routine = c.routine

namespace Machine.Constructs

variable {n : Nat}

theorem goes (h : m.Fetches past L a m1 ⟨c, position, base⟩ below i)
    (hperforms : m1.Performs ⟨c, position, base⟩ i (.ok () m')) (hobject : c.routine.kind = .object)
    (hret : i ≠ .ret) (hslot : position ≠ 0 → ∃ o, m1.stack[base]? = some (.object o) ∧ n ≤ o)
    (hsize : n ≤ m1.objects.size) : Constructs c base below n m' := by
  obtain ⟨entered, target, hcalls', _, _⟩ := hperforms.advances h.calls_eq hret
  have hmem : ⟨c, position, base⟩ ∈ m1.calls := h.calls_eq ▸ List.mem_cons_self
  refine ⟨⟨entered, target, hcalls', fun _ => ?_⟩, Nat.le_trans hsize hperforms.objects_size_le⟩
  by_cases hposition : position = 0
  · -- The first instruction is the one that makes the object.
    subst hposition
    obtain ⟨name, hfirst⟩ := (h.ready.arranged.layout h.calls_eq).constructs hobject
    cases h.instruction.unique hfirst
    obtain ⟨_, hstack⟩ := hperforms.object
    obtain ⟨_, hmidway, _⟩ := h.ready.arranged
    have hlt : base < m1.stack.size := hmidway.base_lt _ _ h.calls_eq
    exact ⟨m1.objects.size, by rw [hstack, Array.getElem?_setIfInBounds_self_of_lt hlt], hsize⟩
  · obtain ⟨o, ho, hle⟩ := hslot hposition
    exact ⟨o, (h.object_eq hperforms hmem (absurd · hret) hobject hposition).trans ho, hle⟩

/-- What the call of a unit returns is the object it has made, under the name of the unit. -/
theorem constructed (hobject : c.routine.kind = .object) (hready : m.Ready past L a)
    (hrears : m.Rears m.works) (hcalls : m.calls = ⟨c, position, base⟩ :: below)
    (hslot : position ≠ 0 → ∃ o, m.stack[base]? = some (.object o) ∧ n ≤ o)
    (hat : c.routine.code.At position .ret) (hperforms : m.Performs ⟨c, position, base⟩ .ret (.ok () m')) :
    Constructed c base below n m' := by
  have hposition : position ≠ 0 := hready.position_ne hcalls hat hobject fun _ => nofun
  obtain ⟨o, ho, hle⟩ := hslot hposition
  have hone : (L.shapeOf ⟨c, position, base⟩).height = 1 :=
    (if_pos hobject).mp (hready.arranged.allowed hcalls hat).values
  have hstack : m.stack.size = base + 1 := (hready.arranged.size_eq hcalls).trans (by rw [hone])
  have hresult : m.stack.back?.getD .nil = .object o := by
    rw [Array.back?_eq_getElem?, show m.stack.size - 1 = base by omega, ho]
    rfl
  obtain ⟨hf, _⟩ := hcalls ▸ hrears.calls
  obtain ⟨hrears', _, _⟩ := hf o ⟨hobject, hposition, ho⟩
  obtain ⟨name, p, hname, hp, hroutine⟩ := hrears'.unit
  obtain ⟨hcalls', hstack', _⟩ := hperforms.returns hcalls
  obtain ⟨hobjects, hlibrary⟩ : m'.objects = m.objects ∧ m'.library = m.library := by
    apply hperforms.gives_alone
    exact fun _ => gives_leave _ (fun _ _ => nofun) fun _ => ⟨rfl, rfl⟩
  refine ⟨hcalls', o, name, p, ?_, hle, hobjects ▸ hname, hlibrary ▸ hp, hroutine⟩
  have hshrunk : (m.stack.pop.shrink base).size = base := by
    rw [Array.size_shrink, Array.size_pop]
    omega
  show m'.stack[base]? = _
  rw [hstack', hresult, Array.getElem?_push, if_pos hshrunk.symm]

theorem turn (h : Constructs c base below n m) (hobject : c.routine.kind = .object) (hrunning : m.Running past L a)
    (hrears : m.Rears m.works) (hturn : Session.Turn m (.ok () m')) :
    Constructs c base below n m' ∨ Constructed c base below n m' := by
  obtain ⟨m1, f, rest, i, hfetches, hperforms⟩ := hturn.fetches hrunning
  obtain ⟨inner, position, hcalls, hslot⟩ := h.calls
  obtain ⟨inner', hcalls', hsame, hobjects, hbase⟩ := hrunning.start_above hfetches.started hcalls
  replace hslot : position ≠ 0 → ∃ o, m1.stack[base]? = some (.object o) ∧ n ≤ o := by rwa [hbase]
  have hsize : n ≤ m1.objects.size := hobjects ▸ h.size_le
  rcases hfetches.calls_cases hperforms hcalls' with ⟨_, hmem, inner'', hcalls''⟩ |
    ⟨rfl, rfl, rfl, ⟨rfl, _⟩ | ⟨hret, _⟩⟩
  · refine .inl ⟨⟨inner'', position, hcalls'', fun hposition => ?_⟩, Nat.le_trans hsize hperforms.objects_size_le⟩
    obtain ⟨o, ho, hle⟩ := hslot hposition
    have hmem' : ⟨c, position, base⟩ ∈ m1.calls := hfetches.calls_eq ▸ List.mem_cons_of_mem _ hmem
    exact ⟨o, (hfetches.object_eq hperforms hmem' (fun _ => hmem) hobject hposition).trans ho, hle⟩
  · obtain rfl := hsame rfl
    exact .inr (constructed hobject hfetches.ready hrears hfetches.calls_eq hslot hfetches.instruction hperforms)
  · exact .inl (goes hfetches hperforms hobject hret hslot hsize)

end Machine.Constructs

namespace Session

/-- The construction of an object in a whole run: it is still under way, or it is over. -/
theorem Proceeds.constructs {n : Nat} (h : Proceeds below.length m m') (hm : Reached ⟨a, m⟩) (ha : a ≠ .idle)
    (hobject : c.routine.kind = .object) (hcall : m.Constructs c base below n) :
    m'.Constructs c base below n ∨ m'.Constructed c base below n := by
  induction h with
  | refl => exact .inl hcall
  | turn hproceeds hdepth hturn ih =>
    rcases ih with hconstructs | hover
    · have hreached := hm.leads (hproceeds.leads ha)
      exact hconstructs.turn hobject ((hreached.orderly .some).running ha) (hreached.inLine.rears ha) hturn
    · have hlength := congrArg List.length hover.calls_eq
      simp only [calls, List.length_reverse, Array.length_toList] at hlength
      omega
  | shown output events _ ih => exact ih.imp (fun h => ⟨h.calls, h.size_le⟩) fun h => ⟨h.calls_eq, h.result⟩

theorem constructs_of_program (h : m.Running past L a) (hback : m.stack.back? = some (.program p))
    (hturn : Turn m (.ok () m')) :
    m'.Constructs ⟨m.nextSerial, p.routine, #[]⟩ (m.stack.size - 1) m.calls m.objects.size ∧
      p.routine.kind = .object := by
  obtain ⟨m1, i, hfetches, hperforms, hret, hobject, hobjects⟩ := hturn.fetches_program h hback
  exact ⟨.goes hfetches hperforms hobject hret (fun hne => absurd rfl hne) (by rw [hobjects]), hobject⟩

end Session

end Mudscript
