import Mudscript.Proofs.Requests

/-!
# Object paths

A path is normalized once, when an object is asked for. What comes out is not always a path that stays as it
is: the extension is taken away once, and what stood in front of it may end in a blank or in the extension
again. Such an object cannot be asked for by its own name (`Library.answers_by_name_iff`).

The file of an object lies inside the directory of objects. The test looks at the path before the extension
is added, and the last component is a different one behind that (`ObjectPath.file_inside`).
-/

namespace Mudscript

open List

variable {first part rest : List Char} {history : List Request} {p : Program}

namespace ObjectPath

/-! ### Normal paths -/

variable {cs stem e : List Char}

def Trimmed (cs : List Char) : Prop := ∀ c, cs.getLast? = some c → Text.isBlank c = false

theorem trimEndChars_eq_self_iff : Text.trimEndChars cs = cs ↔ Trimmed cs := by
  rw [show Text.trimEndChars cs = cs.rdropWhile Text.isBlank from rfl, rdropWhile_eq_self_iff]
  constructor
  · intro h c hc
    obtain ⟨hne, rfl⟩ := mem_getLast?_eq_getLast hc
    exact Bool.eq_false_of_not_eq_true (h hne)
  · intro h hne
    rw [h _ (List.getLast?_eq_some_getLast hne)]
    exact Bool.false_ne_true

private theorem trimmed_trim (cs : List Char) : Trimmed (Text.trimStartChars (Text.trimEndChars cs)) := by
  intro c hc
  have hend : Trimmed (Text.trimEndChars cs) := trimEndChars_eq_self_iff.mp (rdropWhile_idempotent _ _)
  obtain ⟨front, hfront⟩ := dropWhile_suffix (l := Text.trimEndChars cs) Text.isBlank
  apply hend c
  rw [← hfront, List.getLast?_append]
  exact (congrArg (·.or front.getLast?) hc)

theorem dropEnding?_eq_some_iff {ending : List Char} : dropEnding? ending cs = some rest ↔ cs = rest ++ ending := by
  unfold dropEnding?
  constructor
  · intro h
    split at h
    · rename_i hsuffix
      obtain ⟨front, rfl⟩ := isSuffixOf_iff_suffix.mp hsuffix
      simpa using h
    · cases h
  · rintro rfl
    rw [if_pos (isSuffixOf_iff_suffix.mpr (suffix_append rest ending))]
    simp

/-- A point and the extension are taken away where they stand at the end. -/
theorem dropExtension_append (he : e ≠ []) (stem : List Char) : dropExtension e (stem ++ '.' :: e) = stem := by
  have hextension : dropEnding? e (stem ++ '.' :: e) = some (stem ++ ['.']) :=
    dropEnding?_eq_some_iff.mpr (by simp)
  have hpoint : dropEnding? ['.'] (stem ++ ['.']) = some stem := dropEnding?_eq_some_iff.mpr rfl
  rw [dropExtension, if_neg (by simpa using he), hextension, Option.bind_some, hpoint, Option.getD_some]

theorem dropExtension_of_not_suffix (h : ¬ '.' :: e <:+ cs) : dropExtension e cs = cs := by
  unfold dropExtension
  split
  · rfl
  · cases hrest : (dropEnding? e cs).bind (dropEnding? ['.']) with
    | none => rfl
    | some rest =>
      obtain ⟨middle, hmiddle, hpoint⟩ := Option.bind_eq_some_iff.mp hrest
      rw [dropEnding?_eq_some_iff] at hmiddle hpoint
      exact absurd ⟨rest, by rw [hmiddle, hpoint, append_assoc]; rfl⟩ h

private theorem dropExtension_isPrefix (e cs : List Char) : dropExtension e cs <+: cs := by
  by_cases he : e = []
  · simp [dropExtension, he]
  by_cases h : '.' :: e <:+ cs
  · obtain ⟨stem, rfl⟩ := h
    rw [dropExtension_append he]
    exact prefix_append stem _
  · simp [dropExtension_of_not_suffix h]

private theorem normalizeChars_eq_self_iff (rest e : List Char) : normalizeChars ('/' :: rest) e = '/' :: rest ↔
    Trimmed ('/' :: rest) ∧ (e = [] ∨ ¬ '.' :: e <:+ '/' :: rest) := by
  -- A blank in front is not there, so only the end is trimmed.
  have hstart : ∀ {cs : List Char}, cs <+: '/' :: rest → Text.trimStartChars cs = cs := by
    intro cs hcs
    cases cs with
    | nil => rfl
    | cons c cs =>
      obtain rfl : c = '/' := (cons_prefix_cons.mp hcs).1
      rfl
  have htrim : Text.trimEndChars ('/' :: rest) <+: '/' :: rest := rdropWhile_prefix _ _
  rw [normalizeChars, hstart htrim]
  constructor
  · intro h
    have hdrop := dropExtension_isPrefix e (Text.trimEndChars ('/' :: rest))
    have hshape : dropExtension e (Text.trimEndChars ('/' :: rest)) = '/' :: rest := by
      cases hr : dropExtension e (Text.trimEndChars ('/' :: rest)) with
      | cons c r =>
        rw [hr] at h hdrop
        obtain rfl : c = '/' := (cons_prefix_cons.mp (hdrop.trans htrim)).1
        exact h
      | nil =>
        -- Nothing is left of a single slash only if it ends in the extension, and then it is longer.
        rw [hr] at h
        obtain rfl : [] = rest := (List.cons.inj h).2
        rw [show Text.trimEndChars ['/'] = ['/'] from rfl, dropExtension_of_not_suffix] at hr
        · cases hr
        · intro hsuffix
          obtain ⟨front, hfront⟩ := hsuffix
          cases front <;> simp at hfront
    have hend : Text.trimEndChars ('/' :: rest) = '/' :: rest := by
      rw [hshape] at hdrop
      exact htrim.eq_of_length_le hdrop.length_le
    refine ⟨trimEndChars_eq_self_iff.mp hend, ?_⟩
    rw [hend] at hshape
    by_contra hnot
    obtain ⟨he, hsuffix⟩ := not_or.mp hnot
    obtain ⟨stem, hstem⟩ := not_not.mp hsuffix
    rw [← hstem, dropExtension_append he] at hshape
    simpa using congrArg List.length hshape
  · rintro ⟨htrimmed, hsuffix⟩
    rw [trimEndChars_eq_self_iff.mpr htrimmed]
    have hkeep : dropExtension e ('/' :: rest) = '/' :: rest := by
      rcases hsuffix with rfl | hsuffix
      · rfl
      · exact dropExtension_of_not_suffix hsuffix
    rw [hkeep]
    rfl

private theorem exists_withSlash (cs : List Char) : ∃ rest, withSlash cs = '/' :: rest := by
  unfold withSlash
  split
  · exact ⟨_, rfl⟩
  · exact ⟨cs, rfl⟩

private theorem trimmed_withSlash : Trimmed (withSlash cs) ↔ Trimmed cs := by
  unfold withSlash
  split
  · exact Iff.rfl
  · cases cs with
    | nil => simp [Trimmed, show Text.isBlank '/' = false from rfl]
    | cons c cs => rw [Trimmed, Trimmed, List.getLast?_cons_cons]

private theorem suffix_withSlash : '.' :: e <:+ withSlash cs ↔ '.' :: e <:+ cs := by
  unfold withSlash
  split
  · exact Iff.rfl
  · rw [suffix_cons_iff]
    simp

/-- In front of the extension that a path ends in there is a blank, or the extension again. -/
def StripsAgain (path extension : String) : Prop :=
  extension ≠ "" ∧ ∃ stem, (Text.trim path).toList = stem ++ '.' :: extension.toList ∧
    (¬ Trimmed stem ∨ '.' :: extension.toList <:+ stem)

/-- Normalizing a path once is enough, unless something is left to be taken away from its end. -/
theorem normalize_normalize_iff (path extension : String) :
    normalize (normalize path extension) extension = normalize path extension ↔ ¬ StripsAgain path extension := by
  obtain ⟨e, rfl⟩ : ∃ e, extension = String.ofList e := ⟨extension.toList, by simp⟩
  simp only [normalize, StripsAgain, Text.trim, String.toList_ofList, String.ofList_inj, normalizeChars]
  have htrimmed := trimmed_trim path.toList
  generalize Text.trimStartChars (Text.trimEndChars path.toList) = cs at htrimmed
  obtain ⟨rest, hrest⟩ := exists_withSlash (dropExtension e cs)
  have hself := normalizeChars_eq_self_iff rest e
  rw [← hrest, trimmed_withSlash, suffix_withSlash] at hself
  refine hself.trans ?_
  by_cases he : e = []
  · subst he
    simp [dropExtension, htrimmed]
  by_cases hsuffix : '.' :: e <:+ cs
  · obtain ⟨stem, rfl⟩ := hsuffix
    rw [dropExtension_append he]
    have hne : String.ofList e ≠ "" := by simpa using he
    simp [he, hne]
  · rw [dropExtension_of_not_suffix hsuffix]
    refine ⟨?_, fun _ => ⟨htrimmed, .inr hsuffix⟩⟩
    rintro - ⟨_, stem, rfl, _⟩
    exact hsuffix (suffix_append ..)

/-! ### Files -/

/-- A part of a path between two slashes, or between a slash and one of its ends. -/
def IsComponent (part path : List Char) : Prop :=
  '/' ∉ part ∧ ∃ front back, path = front ++ part ++ back ∧ (front = [] ∨ front.getLast? = some '/') ∧
    (back = [] ∨ back.head? = some '/')

private theorem eq_of_append_eq {back : List Char} (hpart : '/' ∉ part) (hfirst : '/' ∉ first)
    (hback : back = [] ∨ back.head? = some '/') (heq : part ++ back = first ++ '/' :: rest) :
    part = first ∧ back = '/' :: rest := by
  induction part generalizing first with
  | nil =>
    cases first with
    | nil => exact ⟨rfl, heq⟩
    | cons c first =>
      rw [nil_append] at heq
      subst heq
      simp at hback hfirst
      exact absurd hback.symm hfirst.1
  | cons c part ih =>
    cases first with
    | nil =>
      simp only [cons_append, nil_append, List.cons.injEq] at heq
      exact absurd (heq.1 ▸ mem_cons_self) hpart
    | cons d first =>
      simp only [cons_append, List.cons.injEq] at heq
      obtain ⟨rfl, heq⟩ := heq
      obtain ⟨rfl, rfl⟩ := ih (not_mem_of_not_mem_cons hpart) (not_mem_of_not_mem_cons hfirst) heq
      exact ⟨rfl, rfl⟩

private theorem isComponent_of_not_mem {path : List Char} (h : '/' ∉ path) : IsComponent part path ↔ part = path := by
  constructor
  · rintro ⟨_, front, back, rfl, hfront, hback⟩
    have hfront : front = [] := hfront.resolve_right fun hlast => h (by simp [mem_of_getLast? hlast])
    have hback : back = [] := hback.resolve_right fun hhead => h (by simp [mem_of_mem_head? hhead])
    simp [hfront, hback]
  · rintro rfl
    exact ⟨h, [], [], by simp, .inl rfl, .inl rfl⟩

private theorem isComponent_append_cons (hfirst : '/' ∉ first) :
    IsComponent part (first ++ '/' :: rest) ↔ part = first ∨ IsComponent part rest := by
  constructor
  · rintro ⟨hpart, front, back, heq, hfront, hback⟩
    rw [append_assoc] at heq
    rcases hfront with rfl | hlast
    · exact .inl (eq_of_append_eq hpart hfirst hback heq.symm).1
    · -- The slash in front is the first one, or a later one.
      obtain ⟨before, rfl⟩ := List.getLast?_eq_some_iff.mp hlast
      have hmem : ∀ tail, first ≠ before ++ ['/'] ++ tail := fun tail h => hfirst (h ▸ by simp)
      rcases append_eq_append_iff.mp heq with ⟨extra, hextra, hrest⟩ | ⟨tail, htail, _⟩
      · cases extra with
        | nil => exact absurd (by simpa using hextra.symm) (hmem [])
        | cons c extra =>
          obtain ⟨rfl, rfl⟩ := List.cons.inj hrest
          rw [hextra] at hlast
          refine .inr ⟨hpart, extra, back, (append_assoc ..).symm, ?_, hback⟩
          cases extra with
          | nil => exact .inl rfl
          | cons c extra => exact .inr (by simpa [List.getLast?_append] using hlast)
      · exact absurd htail (hmem tail)
  · rintro (rfl | ⟨hpart, front, back, rfl, hfront, hback⟩)
    · exact ⟨hfirst, [], '/' :: rest, by simp, .inl rfl, .inr rfl⟩
    · refine ⟨hpart, first ++ '/' :: front, back, by simp, .inr ?_, hback⟩
      rcases hfront with rfl | hlast
      · simp
      · simp [List.getLast?_append, List.getLast?_cons, hlast]

theorem mem_splitOn_iff (part path : List Char) : part ∈ path.splitOn '/' ↔ IsComponent part path := by
  induction hn : path.length using Nat.strong_induction_on generalizing path with
  | _ n ih =>
    by_cases hslash : '/' ∈ path
    · obtain ⟨first, rest, rfl, hfirst⟩ := eq_append_cons_of_mem hslash
      rw [splitOn_append_cons_self_of_not_mem hfirst, mem_cons, isComponent_append_cons hfirst,
        ih rest.length (by simp at hn; omega) rest rfl]
    · rw [splitOn_eq_singleton hslash, mem_singleton, isComponent_of_not_mem hslash]

/-- An extension at the end of a path makes no component that leads upwards. -/
theorem not_isComponent_append {inside : List Char} (hslash : '/' ∉ e) (hpoint : e ≠ ['.']) (hne : e ≠ [])
    (h : ¬ IsComponent ['.', '.'] inside) : ¬ IsComponent ['.', '.'] (inside ++ '.' :: e) := by
  have hending : '/' ∉ '.' :: e := by simp [hslash]
  rintro ⟨hparts, front, back, heq, hfront, hback⟩
  rcases hback with rfl | hhead
  · -- A last component of two points ends inside the extension or begins in front of it.
    rw [append_nil] at heq
    rcases append_eq_append_iff.mp heq with ⟨tail, rfl, htail⟩ | ⟨tail, _, htail⟩
    · cases tail with
      | nil => exact hpoint (List.cons.inj htail).2
      | cons c tail =>
        rw [List.getLast?_append] at hfront
        have hmem : '/' ∈ c :: tail := mem_of_getLast? (by simpa using hfront)
        exact hending (htail ▸ mem_append_left _ hmem)
    · rcases tail with _ | ⟨c, _ | ⟨d, tail⟩⟩
      · exact hpoint (List.cons.inj htail).2.symm
      · simp at htail
        exact hne htail.2
      · simp at htail
  · -- A component with a slash behind it is one of the path alone.
    rcases append_eq_append_iff.mp heq with ⟨tail, _, htail⟩ | ⟨tail, rfl, htail⟩
    · exact hending (htail ▸ mem_append_right _ (mem_of_mem_head? hhead))
    · refine h ⟨hparts, front, tail, rfl, hfront, ?_⟩
      cases tail with
      | nil =>
        rw [htail] at hhead
        cases hhead
      | cons c tail =>
        rw [htail] at hhead
        exact .inr hhead

private theorem toList_join (root inside : String) : (join root inside).toList
    = root.toList ++ (if root = "" ∨ root.toList.getLast? = some '/' then [] else ['/']) ++ inside.toList := by
  unfold join
  split
  · rename_i hnone
    have hroot : root = "" := by simpa using hnone
    simp [hroot]
  · rename_i hlast
    simp [hlast]
  · rename_i c hne hlast
    have hroot : root ≠ "" := by
      rintro rfl
      cases hlast
    have hslash : root.toList.getLast? ≠ some '/' := fun h => hne (Option.some.inj (hlast.symm.trans h))
    simp [hroot, hslash]

private theorem file_cases (root extension path : String) :
    (((relative path).toList = [] ∨ IsComponent ['.', '.'] (relative path).toList) ∧
      file root extension path = .error (.outsideRoot path)) ∨
    ((relative path).toList ≠ [] ∧ ¬ IsComponent ['.', '.'] (relative path).toList) ∧
      ∃ f, file root extension path = .ok f ∧ f.toList
        = (join root (relative path)).toList ++ if extension = "" then [] else '.' :: extension.toList := by
  unfold file
  dsimp only
  split
  · rename_i h
    rw [Bool.or_eq_true, String.isEmpty_iff, contains_iff_mem, components, mem_splitOn_iff] at h
    refine .inl ⟨h.imp_left fun hempty => by rw [hempty]; rfl, rfl⟩
  · rename_i h
    rw [Bool.or_eq_true, String.isEmpty_iff, contains_iff_mem, components, mem_splitOn_iff, not_or] at h
    refine .inr ⟨⟨fun hempty => h.1 (by simpa using hempty), h.2⟩, _, rfl, ?_⟩
    by_cases hextension : extension = "" <;> simp [hextension]

/-- The file of an object is its path inside the directory of objects, with the extension at its end. There is none
if and only if the path is empty or leads upwards. -/
theorem file_inside (root extension path : String) (hslash : '/' ∉ extension.toList) (hpoint : extension ≠ ".") :
    let inside := (relative path).toList
    let tail := inside ++ if extension = "" then [] else '.' :: extension.toList
    (∃ slashes, path.toList = slashes ++ inside ∧ (∀ c ∈ slashes, c = '/') ∧ inside.head? ≠ some '/') ∧
    ((∃ f, file root extension path = .ok f) ↔ inside ≠ [] ∧ ¬ IsComponent ['.', '.'] inside) ∧
    (∀ e, file root extension path = .error e → e = .outsideRoot path) ∧
    ∀ f, file root extension path = .ok f →
      f.toList = root.toList ++ (if root = "" ∨ root.toList.getLast? = some '/' then [] else ['/']) ++ tail ∧
        ¬ IsComponent ['.', '.'] tail ∧ tail.head? ≠ some '/' := by
  intro inside tail
  have hinside : inside = path.toList.dropWhile (· = '/') := String.toList_ofList
  have hhead : inside.head? ≠ some '/' := by
    intro hhead
    have hnot := List.head?_dropWhile_not (· = '/') path.toList
    rw [← hinside, hhead] at hnot
    simp at hnot
  refine ⟨⟨path.toList.takeWhile (· = '/'), ?_, fun c hc => by simpa using mem_takeWhile_imp hc, hhead⟩, ?_⟩
  · rw [hinside, takeWhile_append_dropWhile]
  rcases file_cases root extension path with ⟨hout, herror⟩ | ⟨⟨hne, hin⟩, f, hok, hf⟩
  · rw [herror]
    refine ⟨⟨?_, ?_⟩, ?_, ?_⟩
    · rintro ⟨f, hf⟩
      cases hf
    · rintro ⟨hne, hin⟩
      exact absurd hout (not_or.mpr ⟨hne, hin⟩)
    · rintro e he
      cases he
      rfl
    · rintro f hf
      cases hf
  · rw [hok]
    refine ⟨⟨fun _ => ⟨hne, hin⟩, fun _ => ⟨f, rfl⟩⟩, ?_, ?_⟩
    · rintro e he
      cases he
    · rintro f' hf'
      cases hf'
      rw [toList_join, append_assoc] at hf
      refine ⟨hf, ?_, ?_⟩
      · by_cases hempty : extension = ""
        · simpa [tail, hempty] using hin
        · rw [show tail = inside ++ '.' :: extension.toList from congrArg _ (if_neg hempty)]
          refine not_isComponent_append hslash (fun h => hpoint ?_) (by simpa using hempty) hin
          rw [← String.toList_inj, h]
          rfl
      · rw [List.head?_append_of_ne_nil _ hne]
        exact hhead

/-- A path that ends in a point, which the point of the extension is put behind. -/
theorem file_inside_point : '/' ∉ "c".toList ∧ "c" ≠ "." ∧ ∃ f, file "lib" "c" "//a/./." = .ok f ∧
    f.toList = "lib/a/./..c".toList ∧ ¬ IsComponent ['.', '.'] "a/./..c".toList := by
  have hinside : (relative "//a/./.").toList = "a/./.".toList := by cbv
  obtain ⟨_, hiff, _, hfile⟩ := file_inside "lib" "c" "//a/./." (by decide) (by decide)
  rw [hinside] at hiff hfile
  have hup : ¬ IsComponent ['.', '.'] "a/./.".toList := by
    rw [← mem_splitOn_iff]
    decide
  obtain ⟨f, hf⟩ := hiff.mpr ⟨by decide, hup⟩
  obtain ⟨hpath, htail, _⟩ := hfile f hf
  exact ⟨by decide, by decide, f, hf, hpath, htail⟩

end ObjectPath

namespace Library

open ObjectPath

theorem Remembers.name_eq {first l : Library} (h : Remembers first history l) {key : String}
    (hp : l.programs[key]? = some p) : p.routine.name = key := by
  obtain ⟨text, hcompiled⟩ := h.unit key p hp
  exact (header_of_compileObject hcompiled).1

theorem name_of_answered {source : ObjectSource} {extension : String} {q : Request}
    (h : Answered { source, extension } history q p) :
    (afterAll { source, extension } history).programs[normalize q.path extension]? = some p ∧
      p.routine.name = normalize q.path extension := by
  have hremembers := remembers_afterAll source extension history
  have hkept := hremembers.kept q p h
  exact ⟨hkept, hremembers.name_eq hkept⟩

/-- A path, and an object that was asked for under it at some time. Normalizing the path a second time changes
nothing if and only if nothing is left to be taken away from its end. In that case a request for the object by
its own name is answered with the same program, without anything being compiled, and otherwise it is not. -/
theorem answers_by_name_iff (path extension : String) :
    (normalize (normalize path extension) extension = normalize path extension ↔ ¬ StripsAgain path extension) ∧
    ∀ (source : ObjectSource) (history : List Request) (q : Request) (p : Program), q.path = path →
      Answered { source, extension } history q p →
      let l := afterAll { source, extension } history
      ∀ q' : Request, q'.path = p.routine.name →
        ((l.serve q').result = .ok p ↔ ¬ StripsAgain path extension) ∧
        (¬ StripsAgain path extension →
          l.serve q' = ⟨.ok p, { l with source := q'.source }, [.cacheHit p.routine.name]⟩) := by
  refine ⟨normalize_normalize_iff path extension, ?_⟩
  intro source history q p hpath hanswered l q' hq'
  have hremembers : Remembers _ history l := remembers_afterAll source extension history
  obtain ⟨hkept, hname⟩ := name_of_answered hanswered
  rw [hpath] at hkept hname
  have hkey : l.key q'.path = normalize (normalize path extension) extension := by
    rw [hremembers.key_eq, hq', hname]
    rfl
  have hhit : ¬ StripsAgain path extension →
      l.serve q' = ⟨.ok p, { l with source := q'.source }, [.cacheHit p.routine.name]⟩ := by
    intro hstays
    rw [(normalize_normalize_iff path extension).mpr hstays] at hkey
    rw [serve_of_some (hkey ▸ hkept), hkey, hname]
  refine ⟨⟨fun hresult => ?_, fun hstays => by rw [hhit hstays]⟩, hhit⟩
  -- A later answer is kept under the key of the later request, and bears it as its name.
  have hlater : Answered { source, extension } (history ++ [q']) q' p :=
    answered_concat.mpr (.inr ⟨rfl, hresult⟩)
  have hagain := (name_of_answered hlater).2
  rw [hq', hname] at hagain
  exact (normalize_normalize_iff path extension).mp hagain.symm

set_option maxRecDepth 20000 in
/-- The object of a file that has the extension twice is not found under its own name. -/
theorem answers_by_name_iff_doubled : ∃ (r : Routine) (l : Library), compileObject "/a.c" "int x=true;" = .ok r ∧
    (∃ q : Request, q.path = "a.c.c" ∧ (∃ first : Library, first.Answered [q] q ⟨7, r⟩ ∧ l = first.afterAll [q])) ∧
    r.name = "/a.c" ∧ ∀ source textOf, (l.serve ⟨"/a.c", 8, source, textOf⟩).result ≠ .ok ⟨7, r⟩ := by
  obtain ⟨r, hr, _⟩ : ∃ r, compileObject "/a.c" "int x=true;" = .ok r ∧ True := Computed.intro _ (by cbv)
  obtain ⟨source, q, hq, hanswered⟩ := exists_answered (show ObjectPath.normalize "a.c.c" "c" = "/a.c" by cbv) hr
  have hname : r.name = "/a.c" := (header_of_compileObject hr).1
  refine ⟨r, _, hr, ⟨q, hq, _, hanswered, rfl⟩, hname, fun source' textOf hsame => ?_⟩
  have hiff := (answers_by_name_iff "a.c.c" "c").2 source [q] q ⟨7, r⟩ hq hanswered ⟨"/a.c", 8, source', textOf⟩
    hname.symm
  refine hiff.1.mp hsame ⟨by decide, ['a', '.', 'c'], by cbv, .inr ⟨['a'], rfl⟩⟩

end Library

end Mudscript
