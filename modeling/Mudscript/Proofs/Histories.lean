import Mudscript.Proofs.Changes
import Mudscript.Proofs.Returns

/-!
# Histories of objects

A run changes an object one instruction at a time. Its history in a run is the list of these changes, each
with the call that made it. Nothing else happens to the object, so it is at any point of the run what its
history makes of the object it was at first.
-/

namespace Mudscript

open Machine Exec

/-! ### Members -/

namespace Members

variable {α : Type} {members : Members α} {x y : String} {v : α}

@[simp] theorem get?_put_self (members : Members α) (x : String) (v : α) : (members.put x v).get? x = some v := by
  induction members with
  | nil => simp [put, get?]
  | cons entry rest ih =>
    obtain ⟨key, old⟩ := entry
    by_cases hkey : key = x
    · simp [put, get?, hkey]
    · simp [put, get?, hkey, ih]

theorem get?_put_of_ne (members : Members α) (hne : x ≠ y) (v : α) : (members.put x v).get? y = members.get? y := by
  induction members with
  | nil => simp [put, get?, hne]
  | cons entry rest ih =>
    obtain ⟨key, old⟩ := entry
    by_cases hkey : key = x
    · subst hkey
      simp [put, get?, hne]
    · simp [put, get?, hkey, ih]

theorem get?_eq_none_iff (members : Members α) (x : String) : members.get? x = none ↔ x ∉ members.names := by
  induction members with
  | nil => simp [get?, names]
  | cons entry rest ih =>
    obtain ⟨key, old⟩ := entry
    by_cases hkey : key = x
    · simp [get?, names, hkey]
    · rw [get?, if_neg hkey, ih]
      simp [names, Ne.symm hkey]

theorem names_put (members : Members α) (x : String) (v : α) :
    (members.put x v).names = if x ∈ members.names then members.names else members.names ++ [x] := by
  induction members with
  | nil => simp [put, names]
  | cons entry rest ih =>
    obtain ⟨key, old⟩ := entry
    by_cases hkey : key = x
    · simp [put, names, hkey]
    · have hcons : ∀ (old : α) (rest : Members α), names ((key, old) :: rest) = key :: names rest := fun _ _ => rfl
      rw [put, if_neg hkey, hcons, hcons, ih]
      simp only [List.mem_cons, Ne.symm hkey, false_or]
      split <;> rfl

theorem names_put_of_isSome (h : (members.get? x).isSome) (v : α) : (members.put x v).names = members.names := by
  rw [names_put, if_pos]
  by_contra hx
  rw [(get?_eq_none_iff members x).mpr hx] at h
  cases h

theorem names_put_of_eq {xs : List String} (h : members.names = xs.eraseDups) (x : String) (v : α) :
    (members.put x v).names = (xs ++ [x]).eraseDups := by
  rw [names_put, h, List.eraseDups_append]
  by_cases hx : x ∈ xs
  · rw [if_pos (List.mem_eraseDups.mpr hx)]
    simp [List.removeAll, hx]
  · rw [if_neg (fun hmem => hx (List.mem_eraseDups.mp hmem))]
    simp [List.removeAll, hx, List.eraseDups_cons]

end Members

/-! ### Histories -/

abbrev Object.History := List (Frame × Object.Change)

def Object.History.replay (history : Object.History) (object : Object) : Object :=
  history.foldl (fun object entry => entry.2.apply object) object

@[simp] theorem Object.History.replay_concat (history : Object.History) (entry : Frame × Object.Change)
    (object : Object) : Object.History.replay (history ++ [entry]) object = entry.2.apply (history.replay object) := by
  rw [replay, List.foldl_append]
  rfl

@[simp] theorem Object.History.replay_name (history : Object.History) (object : Object) :
    (history.replay object).name = object.name := by
  induction history generalizing object with
  | nil => rfl
  | cons entry history ih => exact (ih _).trans (entry.2.apply_name object)

variable {past : Moment} {L : Layouts} {a : Activity} {m m' m1 : Machine} {f : Frame} {i : Instruction}
  {o o' : ObjectId} {change change' : Object.Change} {depth : Nat}

namespace Machine.Changes

theorem unique (h : m.Changes f i o change) (h' : m.Changes f i o' change') : o = o' ∧ change = change' := by
  cases h with
  | field ho =>
    cases h' with
    | field ho' =>
      cases ho.symm.trans ho'
      exact ⟨rfl, rfl⟩
  | method ho hc =>
    cases h' with
    | method ho' hc' =>
      cases ho.symm.trans ho'
      cases hc.symm.trans hc'
      exact ⟨rfl, rfl⟩
  | parent ho hp =>
    cases h' with
    | parent ho' hp' =>
      cases ho.symm.trans ho'
      cases hp.symm.trans hp'
      exact ⟨rfl, rfl⟩
  | assigned ho hholder =>
    cases h' with
    | assigned ho' hholder' =>
      cases ho.symm.trans ho'
      cases hholder.symm.trans hholder'
      exact ⟨rfl, rfl⟩

theorem changesObjects (h : m.Changes f i o change) : i.changesObjects = true := by
  cases h <;> rfl

end Machine.Changes

/-- The instructions that are for changing objects do so, if they do not fail. -/
theorem Machine.Performs.exists_change (h : m.Performs f i (.ok () m')) (hi : i.changesObjects = true)
    (hne : ∀ n, i ≠ .object n) : ∃ o change, m.Changes f i o change := by
  rcases h.objects with ⟨_, hi'⟩ | ⟨n, rfl, _⟩ | ⟨o, change, hchange, _⟩
  · rw [hi] at hi'
    cases hi'
  · exact absurd rfl (hne n)
  · exact ⟨o, change, hchange⟩

def Machine.Alters (m : Machine) (o : ObjectId) (event? : Option (Frame × Object.Change)) : Prop :=
  ∃ m1 f i, startProgram m = .ok () m1 ∧ m1.frames.back? = some f ∧ f.code.At f.position i ∧
    ∀ g change, event? = some (g, change) ↔ g = f ∧ m1.Changes f i o change

theorem Machine.Performs.alters (h : m.Performs f i (.ok () m')) (ho : o < m.objects.size) :
    ∃ change? : Option Object.Change, (∀ change, change? = some change ↔ m.Changes f i o change) ∧
      m'.objects[o]? = m.objects[o]?.map fun object => change?.elim object (·.apply object) := by
  have hstays : (∀ change, ¬ m.Changes f i o change) → m'.objects[o]? = m.objects[o]? →
      ∃ change? : Option Object.Change, (∀ change, change? = some change ↔ m.Changes f i o change) ∧
        m'.objects[o]? = m.objects[o]?.map fun object => change?.elim object (·.apply object) := by
    intro hnone heq
    exact ⟨none, fun change => ⟨nofun, fun hc => absurd hc (hnone change)⟩, by simp [heq]⟩
  rcases h.objects with ⟨heq, hi⟩ | ⟨n, rfl, heq⟩ | ⟨o', change, hchanges, heq⟩
  · apply hstays
    · intro change hc
      rw [hc.changesObjects] at hi
      cases hi
    · rw [heq]
  · apply hstays
    · intro change hc
      cases hc
    · rw [heq, Array.getElem?_push, if_neg (Nat.ne_of_lt ho)]
  · by_cases hsame : o' = o
    · subst hsame
      refine ⟨some change, fun change' => ⟨?_, fun hc => ?_⟩, ?_⟩
      · rintro ⟨⟩
        exact hchanges
      · rw [(hchanges.unique hc).2]
      · rw [heq, Array.getElem?_modify, if_pos rfl]
        rfl
    · apply hstays
      · exact fun change' hc => hsame (hchanges.unique hc).1
      · rw [heq, Array.getElem?_modify, if_neg hsame]

namespace Session

/-- The history of an object in a run. Before each turn more than so many calls are under way. -/
inductive Records (depth : Nat) (o : ObjectId) (m : Machine) : Object.History → Machine → Prop
  | refl : Records depth o m [] m
  | turn {history m' m'' event?} :
      Records depth o m history m' → depth < m'.frames.size → Turn m' (.ok () m'') → m'.Alters o event? →
      Records depth o m (history ++ event?.toList) m''
  | shown {history m'} (output : String) (events : Array Event) :
      Records depth o m history m' → Records depth o m history { m' with output, events }

theorem Turn.exists_alters (hturn : Turn m (.ok () m')) (h : m.Running past L a) (ho : o < m.objects.size) :
    ∃ event?, m.Alters o event? := by
  obtain ⟨m1, f, rest, i, hfetches, hperforms⟩ := hturn.fetches h
  have hobjects : m1.objects = m.objects := by
    rcases h.started hfetches.started with ⟨_, rfl⟩ | ⟨p, _, _, rfl⟩ <;> rfl
  obtain ⟨change?, hchange, _⟩ := hperforms.alters (hobjects ▸ ho)
  refine ⟨change?.map (f, ·), m1, f, i, hfetches.started, hfetches.back, hfetches.instruction, fun g change => ?_⟩
  rw [Option.map_eq_some_iff]
  constructor
  · rintro ⟨change', hsome, heq⟩
    cases heq
    exact ⟨rfl, (hchange change).mp hsome⟩
  · rintro ⟨rfl, hchanges⟩
    exact ⟨change, (hchange change).mpr hchanges, rfl⟩

end Session

end Mudscript
