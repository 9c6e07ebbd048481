import Mudscript.Proofs.Lineage

/-!
# Requests to the library

A library answers one request after another, and what there is to read may be different each time: texts
change, appear and disappear. Still, the first request for an object that succeeds settles what all later
ones get, under whatever spelling of the path they ask for it. The history of the requests tells what the
library keeps: the programs of those that succeeded, once for each path, and nothing of those that failed.
-/

namespace Mudscript

/-! ### Requests -/

namespace Library

/-- A request to a library: the path, the serial number that a new program is to have, and what there is to
read at that time. -/
structure Request where
  path : String
  serial : Nat
  source : ObjectSource
  textOf : String → Except FileError String

def serve (l : Library) (q : Request) : Loading :=
  Library.load { l with source := q.source } q.path q.serial q.textOf

def afterAll (l : Library) (history : List Request) : Library :=
  history.foldl (fun l q => (l.serve q).library) l

variable {l : Library} {q : Request} {p : Program} {history : List Request} {key : String}

private theorem afterAll_concat (l : Library) (history : List Request) (q : Request) :
    l.afterAll (history ++ [q]) = ((l.afterAll history).serve q).library := by
  rw [afterAll, List.foldl_append]
  rfl

theorem serve_of_some (h : l.programs[l.key q.path]? = some p) :
    l.serve q = ⟨.ok p, { l with source := q.source }, [.cacheHit (l.key q.path)]⟩ := by
  have hask : Library.ask { l with source := q.source } q.path q.serial
      = .loaded ⟨.ok p, { l with source := q.source }, [.cacheHit (l.key q.path)]⟩ := by
    unfold ask
    dsimp only
    rw [show Library.key { l with source := q.source } q.path = l.key q.path from rfl, h]
  rw [serve, load, hask]

/-- What can come of a request for a program that the library does not have: it compiles a text and keeps the
program, or it stays as it is. -/
inductive Compiles (l : Library) (q : Request) : Prop
  | compiled {text r} : compileObject (l.key q.path) text = .ok r → (l.serve q).result = .ok ⟨q.serial, r⟩ →
      (l.serve q).library = { l with
        source := q.source, programs := l.programs.insert (l.key q.path) ⟨q.serial, r⟩, compiles := l.compiles + 1 } →
      Compiles l q
  | failed {e} : (l.serve q).result = .error e → (l.serve q).library = { l with source := q.source } → Compiles l q

theorem serve_of_none (h : l.programs[l.key q.path]? = none) : l.Compiles q := by
  have hbrings : Library.Brings { l with source := q.source } q.path q.serial (l.serve q) := brings_load rfl
  generalize hserved : l.serve q = loading at hbrings
  cases hbrings with
  | failed => exact .failed (by rw [hserved]) (by rw [hserved])
  | had hp => cases h.symm.trans hp
  | compiled _ hcompiled => exact .compiled hcompiled (by rw [hserved]) (by rw [hserved]; rfl)

private theorem serve_extension (l : Library) (q : Request) : (l.serve q).library.extension = l.extension := by
  cases h : l.programs[l.key q.path]? with
  | some p => rw [serve_of_some h]
  | none =>
    cases serve_of_none h with
    | compiled _ _ hlibrary => rw [hlibrary]
    | failed _ hlibrary => rw [hlibrary]

theorem serve_key (l : Library) (q : Request) (path : String) : (l.serve q).library.key path = l.key path := by
  rw [key, serve_extension, key]

/-- In the course of some requests, one of them was answered with a program. -/
def Answered (l : Library) (history : List Request) (q : Request) (p : Program) : Prop :=
  ∃ early late, history = early ++ q :: late ∧ ((l.afterAll early).serve q).result = .ok p

theorem answered_concat {q' : Request} : l.Answered (history ++ [q]) q' p ↔
    l.Answered history q' p ∨ q' = q ∧ ((l.afterAll history).serve q).result = .ok p := by
  constructor
  · rintro ⟨early, late, hsplit, hresult⟩
    rcases List.eq_nil_or_concat late with rfl | ⟨late, last, rfl⟩
    · obtain ⟨rfl, hlast⟩ := List.append_inj' hsplit rfl
      cases hlast
      exact .inr ⟨rfl, hresult⟩
    · rw [List.concat_eq_append, ← List.cons_append, ← List.append_assoc] at hsplit
      obtain ⟨rfl, _⟩ := List.append_inj' hsplit rfl
      exact .inl ⟨early, late, rfl, hresult⟩
  · rintro (⟨early, late, rfl, hresult⟩ | ⟨rfl, hresult⟩)
    · exact ⟨early, late ++ [q], by simp, hresult⟩
    · exact ⟨history, [], rfl, hresult⟩

/-- What a library keeps after some requests to one that had nothing. -/
structure Remembers (first : Library) (history : List Request) (l : Library) : Prop where
  key_eq : ∀ path, l.key path = first.key path
  compiles_eq : l.compiles = l.programs.size
  /-- A program is kept if a request was answered with it. -/
  kept : ∀ q p, first.Answered history q p → l.programs[first.key q.path]? = some p
  /-- A program that is kept was compiled for a request, and is the answer to it. -/
  made : ∀ (key : String) (p : Program), l.programs[key]? = some p → ∃ q, first.key q.path = key ∧
    p.serial = q.serial ∧ first.Answered history q p
  unit : l.Keyed

private theorem remembers_start (source : ObjectSource) (extension : String) :
    Remembers { source, extension } [] { source, extension } := by
  refine ⟨fun _ => rfl, rfl, ?_, fun key p hp => ?_, fun key p hp => ?_⟩
  · rintro q p ⟨early, late, hsplit, _⟩
    simp at hsplit
  · simp at hp
  · simp at hp

namespace Remembers

variable {first : Library}

theorem hit (h : Remembers first history l) (hl : l = first.afterAll history)
    (hp : l.programs[l.key q.path]? = some p) : Remembers first (history ++ [q]) (l.serve q).library := by
  have hserve := serve_of_some hp
  rw [hserve]
  refine ⟨h.key_eq, h.compiles_eq, fun q' p' hanswered => ?_, fun key p' hp' => ?_, h.unit⟩
  · rcases answered_concat.mp hanswered with hbefore | ⟨rfl, hresult⟩
    · exact h.kept q' p' hbefore
    · rw [← hl, hserve] at hresult
      cases hresult
      rw [← h.key_eq]
      exact hp
  · obtain ⟨q', hkey, hserial, hanswered⟩ := h.made key p' hp'
    exact ⟨q', hkey, hserial, answered_concat.mpr (.inl hanswered)⟩

/-- A request for what is not there adds one program, or nothing. -/
theorem miss (h : Remembers first history l) (hl : l = first.afterAll history)
    (hnone : l.programs[l.key q.path]? = none) : Remembers first (history ++ [q]) (l.serve q).library := by
  have hkeys : ∀ path, (l.serve q).library.key path = first.key path :=
    fun path => (serve_key l q path).trans (h.key_eq path)
  cases serve_of_none hnone with
  | failed hresult hlibrary =>
    rw [hlibrary]
    refine ⟨h.key_eq, h.compiles_eq, fun q' p hanswered => ?_, fun key p hp => ?_, h.unit⟩
    · rcases answered_concat.mp hanswered with hbefore | ⟨rfl, hresult'⟩
      · exact h.kept q' p hbefore
      · rw [← hl, hresult] at hresult'
        cases hresult'
    · obtain ⟨q', hkey, hserial, hanswered⟩ := h.made key p hp
      exact ⟨q', hkey, hserial, answered_concat.mpr (.inl hanswered)⟩
  | @compiled text r hcompiled hresult hlibrary =>
    have hnew : l.key q.path ∉ l.programs := by
      intro hmem
      rw [Std.HashMap.getElem?_eq_some_getElem hmem] at hnone
      cases hnone
    refine ⟨hkeys, ?_, fun q' p hanswered => ?_, fun key p hp => ?_, fun key p hp => ?_⟩
    · rw [hlibrary]
      show l.compiles + 1 = (l.programs.insert (l.key q.path) ⟨q.serial, r⟩).size
      rw [Std.HashMap.size_insert, if_neg hnew, h.compiles_eq]
    · rw [hlibrary]
      show (l.programs.insert (l.key q.path) ⟨q.serial, r⟩)[first.key q'.path]? = some p
      rw [Std.HashMap.getElem?_insert]
      rcases answered_concat.mp hanswered with hbefore | ⟨rfl, hresult'⟩
      · have hp := h.kept q' p hbefore
        rw [if_neg, hp]
        intro heq
        rw [← eq_of_beq heq, hnone] at hp
        cases hp
      · rw [← hl, hresult] at hresult'
        cases hresult'
        rw [h.key_eq, if_pos (beq_self_eq_true _)]
    · rw [hlibrary] at hp
      change (l.programs.insert (l.key q.path) ⟨q.serial, r⟩)[key]? = some p at hp
      rw [Std.HashMap.getElem?_insert] at hp
      split at hp
      · rename_i heq
        cases hp
        refine ⟨q, ?_, rfl, answered_concat.mpr (.inr ⟨rfl, hl ▸ hresult⟩)⟩
        rw [← h.key_eq]
        exact eq_of_beq heq
      · obtain ⟨q', hkey, hserial, hanswered⟩ := h.made key p hp
        exact ⟨q', hkey, hserial, answered_concat.mpr (.inl hanswered)⟩
    · rw [hlibrary] at hp
      change (l.programs.insert (l.key q.path) ⟨q.serial, r⟩)[key]? = some p at hp
      rw [Std.HashMap.getElem?_insert] at hp
      split at hp
      · rename_i heq
        cases hp
        exact ⟨text, eq_of_beq heq ▸ hcompiled⟩
      · exact h.unit key p hp

end Remembers

theorem remembers_afterAll (source : ObjectSource) (extension : String) (history : List Request) :
    Remembers { source, extension } history (afterAll { source, extension } history) := by
  induction history using List.reverseRecOn with
  | nil => exact remembers_start source extension
  | append_singleton history q ih =>
    rw [afterAll_concat]
    generalize hl : afterAll { source, extension } history = l at ih
    cases hp : l.programs[l.key q.path]? with
    | some p => exact ih.hit hl.symm hp
    | none => exact ih.miss hl.symm hp

/-- A library that starts with nothing, after any requests. Once a request was answered with a program, all
requests for that path, however it is spelled, are answered with the same one, whatever there is to read. A
request that fails leaves everything as it is. As many units were compiled as there are paths with a program,
and these are the paths that were asked for with success. Each program is one for which a request was made
that got it first, and it is the unit of the object of its key. -/
theorem memoizes (source : ObjectSource) (extension : String) (history : List Request) :
    let first : Library := { source, extension }
    let l := first.afterAll history
    (∀ q p, first.Answered history q p → ∀ q' : Request, l.key q'.path = l.key q.path →
      l.serve q' = ⟨.ok p, { l with source := q'.source }, [.cacheHit (l.key q.path)]⟩) ∧
    (∀ q e, (l.serve q).result = .error e → (l.serve q).library = { l with source := q.source }) ∧
    l.compiles = l.programs.size ∧
    (∀ path, l.isCached path = true ↔ ∃ q p, first.Answered history q p ∧ l.key q.path = l.key path) ∧
    ∀ (key : String) (p : Program), l.programs[key]? = some p →
      p.routine.kind = .object ∧ p.routine.name = key ∧ p.routine.owner = some key ∧
        ∃ q, l.key q.path = key ∧ p.serial = q.serial ∧ first.Answered history q p := by
  intro first l
  have hremembers : Remembers first history l := remembers_afterAll source extension history
  refine ⟨fun q p hanswered q' hkey => ?_, fun q e herror => ?_, hremembers.compiles_eq, fun path => ?_,
    fun key p hp => ?_⟩
  · have hp := hremembers.kept q p hanswered
    rw [← hremembers.key_eq, ← hkey] at hp
    rw [serve_of_some hp, hkey]
  · cases hp : l.programs[l.key q.path]? with
    | some p =>
      rw [serve_of_some hp] at herror
      cases herror
    | none =>
      cases serve_of_none hp with
      | compiled _ hresult _ =>
        rw [hresult] at herror
        cases herror
      | failed _ hlibrary => exact hlibrary
  · rw [isCached, Std.HashMap.contains_iff_mem, ← Std.HashMap.isSome_getElem?_iff_mem]
    constructor
    · intro hsome
      obtain ⟨p, hp⟩ := Option.isSome_iff_exists.mp hsome
      obtain ⟨q, hkey, _, hanswered⟩ := hremembers.made _ p hp
      exact ⟨q, p, hanswered, (hremembers.key_eq _).trans hkey⟩
    · rintro ⟨q, p, hanswered, hkey⟩
      rw [← hkey, hremembers.key_eq, hremembers.kept q p hanswered]
      rfl
  · obtain ⟨text, hcompiled⟩ := hremembers.unit key p hp
    obtain ⟨hname, howner⟩ := header_of_compileObject hcompiled
    obtain ⟨q, hkey, hserial, hanswered⟩ := hremembers.made key p hp
    exact ⟨(isUnit_of_compileObject hcompiled).kind_eq, hname, howner, q, (hremembers.key_eq _).trans hkey, hserial,
      hanswered⟩

theorem exists_answered {path text extension : String} {r : Routine}
    (hkey : ObjectPath.normalize path extension = key) (hr : compileObject key text = .ok r) :
    ∃ (source : ObjectSource) (q : Request), q.path = path ∧ Answered { source, extension } [q] q ⟨7, r⟩ := by
  refine ⟨.memory ∅, ⟨path, 7, .memory ((∅ : Std.HashMap String String).insert key text), fun _ => .error .notFound⟩,
    rfl, [], [], rfl, ?_⟩
  simp [afterAll, serve, load, ask, origin, Library.key, enroll, hkey, hr]

set_option maxRecDepth 20000 in
/-- An object that was asked for by the name of its file, and is asked for again when there may be anything to
read or nothing: the program is the one with the serial number of the first request. -/
theorem memoizes_respelled : ∃ (r : Routine) (l : Library), compileObject "/a" "int x=true;" = .ok r ∧
    l.compiles = l.programs.size ∧ l.isCached "a" = true ∧ ∀ source textOf,
      l.serve ⟨" /a.c", 8, source, textOf⟩ = ⟨.ok ⟨7, r⟩, { l with source }, [.cacheHit "/a"]⟩ := by
  obtain ⟨r, hr, _⟩ : ∃ r, compileObject "/a" "int x=true;" = .ok r ∧ True := Computed.intro _ (by cbv)
  have hkey : ObjectPath.normalize "a.c" "c" = "/a" := by cbv
  obtain ⟨source, q, hq, hanswered⟩ := exists_answered hkey hr
  obtain ⟨hsame, _, hcompiles, hcached, _⟩ := memoizes source "c" [q]
  have hkeys : ∀ path, (afterAll { source, extension := "c" } [q]).key path = ObjectPath.normalize path "c" :=
    fun path => serve_key _ q path
  refine ⟨r, afterAll { source, extension := "c" } [q], hr, hcompiles, (hcached "a").mpr ⟨q, _, hanswered, ?_⟩,
    fun source' textOf => ?_⟩
  · rw [hkeys, hkeys, hq]
    cbv
  · rw [hsame q _ hanswered, hkeys, hq, hkey]
    rw [hkeys, hkeys, hq]
    cbv

end Library

end Mudscript
