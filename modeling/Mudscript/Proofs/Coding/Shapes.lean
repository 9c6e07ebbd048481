import Mudscript.Proofs.Development
import Mudscript.Proofs.Tracing

/-!
# The stack under statements

What is known of the stack can be read off the scope: the locals that are on it, those of them that are
marked as captured, and a number of intermediate values above them. The marks only say what was captured
in the text so far, but at the start of a loop what counts is what is captured anywhere in it, because the
end of the loop leads back there. So `Scope.shape` takes a set of slots that are regarded as captured
anyway. Outside every loop it is empty; in a loop it consists of the locals around the loop that are marked
when the loop ends. Locals declared in the loop are never in it, which is why it is right to leave them
according to their marks.
-/

namespace Mudscript

open List

variable {depth : Int} {ls : List Local} {x : Local} {w' : Ways}

variable {front rest : List Local} {k n h : Nat} {captured : Set Nat} {r : Routine} {w : Ways} {b : Nat}
  {count : Nat} {is : List Instruction} {ps qs : List Piece} {l : LoopSite}

/-! ### Shapes of scopes -/

namespace Scope

variable {s s' : Scope}

def Flagged (s : Scope) (slot : Nat) : Prop := ∃ l, s.localAt? slot = some l ∧ l.captured = true

/-- What is known when `n` locals are on the stack and `h` values in all. -/
def shape (s : Scope) (captured : Set Nat) (n h : Nat) : Shape :=
  .above n {k | k < n ∧ (k ∈ captured ∨ s.Flagged k)} h

theorem shape_proper (hpos : 0 < n) (hle : n ≤ h) : (s.shape captured n h).Proper :=
  Shape.above_proper hpos (fun _ hk => hk.1) hle

theorem shape_flows {n' : Nat} (hle : n ≤ n') (hflags : ∀ k < n, s.Flagged k → s'.Flagged k) :
    (s.shape captured n h).Flows (s'.shape captured n' h) :=
  ⟨rfl, hle, fun k hk => ⟨Nat.lt_of_lt_of_le hk.1 hle, hk.2.imp id (hflags k hk.1)⟩, .inl rfl⟩

theorem shape_eq_above (hcaptured : ∀ k ∈ captured, k < n) (hcovered : ∀ k < n, s.Flagged k → k ∈ captured) :
    s.shape captured n h = .above n captured h := by
  refine congrArg (Shape.above n · h) (Set.ext fun k => ⟨fun hk => hk.2.elim id (hcovered k hk.1), fun hk => ?_⟩)
  exact ⟨hcaptured k hk, .inl hk⟩

theorem localAt?_length {l : Local} (h : s.locals = front ++ l :: rest) : s.localAt? rest.length = some l := by
  rw [localAt?, h]
  simp

theorem localAt?_append (h : s.locals = front ++ rest) (hk : k < rest.length) : s.localAt? k = rest.reverse[k]? := by
  rw [localAt?, h, reverse_append, List.getElem?_append_left (by rwa [length_reverse])]

theorem flagged_of_append {front'} (h : s.locals = front ++ rest)
    (h' : s'.locals = front' ++ rest) (hk : k < rest.length) (hflagged : s.Flagged k) : s'.Flagged k := by
  obtain ⟨l, hget, hl⟩ := hflagged
  refine ⟨l, ?_, hl⟩
  rw [localAt?_append h' hk, ← localAt?_append h hk]
  exact hget

theorem Flagged.follows (h : s.Flagged k) (hf : s.Follows s') : s'.Flagged k := by
  obtain ⟨l, hget, hcaptured⟩ := h
  obtain ⟨l', hget', hmarked⟩ := hf.localAt? hget
  exact ⟨l', hget', hmarked.captured hcaptured⟩

theorem Follows.shape_flows (hf : s.Follows s') (captured : Set Nat) (n h : Nat) :
    (s.shape captured n h).Flows (s'.shape captured n h) :=
  Scope.shape_flows (Nat.le_refl n) fun _ _ hk => hk.follows hf

/-! ### Leaving locals -/

theorem traces_leave (hget : s.localAt? n = some x) (hnot : n ∉ captured) (hpos : 0 < n) :
    Traces r w b (s.shape captured (n + 1) (n + 1)) [.write x.leave] (s.shape captured n n) := by
  have hproper : (s.shape captured (n + 1) (n + 1)).Proper := shape_proper (Nat.succ_pos n) (Nat.le_refl _)
  have hlt : 1 < n + 1 := Nat.succ_lt_succ hpos
  by_cases hcaptured : x.captured = true
  · rw [Local.leave, if_pos hcaptured]
    refine .plain hproper ⟨trivial, hlt⟩ (fun _ => rfl) ⟨rfl, Nat.min_le_right _ _, ?_, .inl rfl⟩
    rintro k (⟨⟨hk, hk'⟩, hclosed⟩ | hk)
    · refine ⟨?_, hk'⟩
      have hne : k + 1 ≠ n + 1 := fun heq => hclosed ⟨rfl, heq⟩
      omega
    · exact absurd hk not_mem_nil
  · have hkept : ¬ (n ∈ captured ∨ s.Flagged n) := by
      rintro (hmem | ⟨x', hget', hx'⟩)
      · exact hnot hmem
      · rw [hget] at hget'
        cases hget'
        exact hcaptured hx'
    rw [Local.leave, if_neg hcaptured]
    refine .plain hproper ⟨trivial, hlt, fun hk => hkept hk.2⟩ (fun _ => rfl) ⟨rfl, Nat.min_le_right _ _, ?_, .inl rfl⟩
    rintro k (⟨⟨hk, hk'⟩, _⟩ | hk)
    · refine ⟨?_, hk'⟩
      have hne : k ≠ n := fun heq => hkept (heq ▸ hk')
      omega
    · exact absurd hk not_mem_nil

theorem traces_leaveAll (hlocals : s.locals = front ++ (ls ++ rest))
    (hcaptured : ∀ k ∈ captured, k < rest.length) (hpos : 0 < rest.length) :
    Traces r w b (s.shape captured (ls ++ rest).length (ls ++ rest).length) (written (ls.map Local.leave))
      (s.shape captured rest.length rest.length) := by
  induction ls generalizing front b with
  | nil => exact .nil (.refl _)
  | cons x ls ih =>
    have hlength : rest.length ≤ (ls ++ rest).length := by simp
    have hfirst := traces_leave (r := r) (w := w) (b := b) (localAt?_length hlocals)
      (fun hmem => absurd (hcaptured _ hmem) (Nat.not_lt.mpr hlength)) (Nat.lt_of_lt_of_le hpos hlength)
    have hsplit : s.locals = (front ++ [x]) ++ (ls ++ rest) := by
      rw [append_assoc]
      exact hlocals
    exact .cons hfirst (ih hsplit)

/-- How many locals a block of the given depth and those around it have. -/
def around (s : Scope) (depth : Int) : Nat := (s.locals.dropWhile (depth < ·.depth)).length

theorem traces_leaving (s : Scope) (depth : Int) (hcaptured : ∀ k ∈ captured, k < s.around depth)
    (hpos : 0 < s.around depth) :
    Traces r w b (s.shape captured s.locals.length s.locals.length) (written ((s.deeperThan depth).map Local.leave))
      (s.shape captured (s.around depth) (s.around depth)) := by
  have hsplit : s.locals = s.deeperThan depth ++ s.locals.dropWhile (depth < ·.depth) :=
    takeWhile_append_dropWhile.symm
  have hall := traces_leaveAll (r := r) (w := w) (b := b) (hsplit.trans (nil_append _).symm) hcaptured hpos
  rw [← hsplit] at hall
  exact hall

theorem around_le (s : Scope) (depth : Int) : s.around depth ≤ s.locals.length :=
  (dropWhile_sublist _).length_le

end Scope

theorem Marks.dropWhile_length {ls' : List Local} (h : Marks ls ls') (depth : Int) :
    (ls'.dropWhile (depth < ·.depth)).length = (ls.dropWhile (depth < ·.depth)).length := by
  induction h with
  | nil => rfl
  | @cons l l' ls ls' hl hrest ih =>
    rw [dropWhile_cons, dropWhile_cons, hl.depth_eq]
    split
    · exact ih
    · rw [length_cons, length_cons, hrest.length_eq]

theorem Scope.around_of_append {s s' : Scope} {new old} (hsplit : s'.locals = new ++ old)
    (hold : Marks s.locals old) (hnew : ∀ x ∈ new, depth < x.depth) : s'.around depth = s.around depth := by
  rw [around, hsplit, dropWhile_append_of_pos fun x hx => decide_eq_true (hnew x hx)]
  exact hold.dropWhile_length depth

/-! ### What code may rely on -/

/-- A routine that the function under compilation can become. -/
structure Routine.Extends (r : Routine) (σ : Scopes) : Prop where
  kind_eq : r.kind = σ.current.kind
  captures_le : σ.current.captures.size ≤ r.upvalueCount
  constants : ∀ (i : Nat) c, σ.current.draft.constants[i]? = some c → r.code.constants[i]? = some c

namespace Scopes

variable {σ σ1 σ2 σ3 σ' : Scopes}

theorem Retains.extends (h : σ.Retains σ') (hr : r.Extends σ') : r.Extends σ := by
  refine ⟨hr.kind_eq.trans h.kind_eq, ?_, fun i c hc => hr.constants i c (h.constants i c hc)⟩
  have hle := h.captures.length_le
  rw [Array.length_toList, Array.length_toList] at hle
  exact hle.trans hr.captures_le

theorem Settled.locals_pos (h : σ.Settled) : 0 < σ.current.locals.length := by
  obtain ⟨l, hget, _⟩ := h.rooted
  exact Scope.lt_of_localAt? hget

/-- Only the first `n` locals can be named. An object unit has no local besides its receiver. -/
structure Sees (σ : Scopes) (n : Nat) : Prop where
  lt : ∀ k l, σ.current.localAt? k = some l → l.isDefined = true → k < n
  object : σ.current.kind = .object → n = 1

theorem sees_locals (hkind : σ.current.kind ≠ .object) : σ.Sees σ.current.locals.length :=
  ⟨fun _ _ hget _ => Scope.lt_of_localAt? hget, fun hobject => absurd hobject hkind⟩

def Pushes (σ : Scopes) (is : List Instruction) (count : Nat) (σ' : Scopes) : Prop :=
  ∀ ⦃r : Routine⦄ ⦃w : Ways⦄ ⦃b : Nat⦄ ⦃captured : Set Nat⦄ ⦃n h : Nat⦄, r.Extends σ' → σ'.Sees n → 0 < n → n ≤ h →
    Traces r w b (σ.current.shape captured n h) (written is) (σ'.current.shape captured n (h + count))

/-- What code in a loop may rely on: the place where the loop goes on can be jumped to, and the locals
around the loop that are marked in the end are those regarded as captured. -/
structure InLoop (w : Ways) (captured : Set Nat) (b : Nat) (σ σ' : Scopes) (l : LoopSite) : Prop where
  back_le : l.back ≤ b
  depth_le : l.depth ≤ σ.current.depth
  around_pos : 0 < σ.current.around l.depth
  captured_lt : ∀ k ∈ captured, k < σ.current.around l.depth
  covered : ∀ k < σ.current.around l.depth, σ'.current.Flagged k → k ∈ captured
  continues : ∀ υ, υ.Flows (.above (σ.current.around l.depth) captured (σ.current.around l.depth)) →
    w.lands (b - l.back) υ
  breaks : ∀ υ, υ.Flows (.above (σ.current.around l.depth) captured (σ.current.around l.depth)) → w.breaks υ

def Runs (l : Option LoopSite) (σ : Scopes) (ps : List Piece) (σ' : Scopes) : Prop :=
  ∀ ⦃r : Routine⦄ ⦃w : Ways⦄ ⦃b : Nat⦄ ⦃captured : Set Nat⦄ ⦃n n' : Nat⦄, r.Extends σ' → σ.current.kind ≠ .object →
    (∀ site, l = some site → InLoop w captured b σ σ' site) → (∀ k ∈ captured, k < n) →
    n = σ.current.locals.length → n' = σ'.current.locals.length →
    Traces r w b (σ.current.shape captured n n) ps (σ'.current.shape captured n' n')

/-- Declarations in a loop stand in a block of their own. -/
def InBlock (l : Option LoopSite) (σ : Scopes) : Prop := ∀ site, l = some site → site.depth < σ.current.depth

theorem Performs.around_eq (h : σ.Performs σ') (depth : Int) : σ'.current.around depth = σ.current.around depth :=
  Scope.around_of_append (nil_append _).symm h.marks nofun

theorem Declares.around_eq (h : σ.Declares σ') (hdeep : depth < σ.current.depth) :
    σ'.current.around depth = σ.current.around depth := by
  obtain ⟨new, old, hsplit, hold, hnew⟩ := h.follows.current.locals
  exact Scope.around_of_append hsplit hold fun x hx => by rw [hnew x hx]; exact hdeep

theorem Declares.inBlock {l : Option LoopSite} (h : σ.Declares σ') (hblock : σ.InBlock l) (bytes : Nat) :
    σ'.InBlock (l.map (·.after bytes)) := by
  intro site hsite
  obtain ⟨site, rfl, rfl⟩ := Option.map_eq_some_iff.mp hsite
  rw [h.follows.current.depth_eq]
  exact hblock site rfl

theorem InLoop.part (h : InLoop w captured b σ σ' l) (hdepth : σ1.current.depth = σ.current.depth)
    (haround : σ1.current.around l.depth = σ.current.around l.depth) (hf : σ2.Follows σ') (bytes : Nat)
    (hlands : ∀ target υ, w.lands target υ → w'.lands target υ) (hbreaks : ∀ υ, w.breaks υ → w'.breaks υ) :
    InLoop w' captured (b + bytes) σ1 σ2 (l.after bytes) := by
  have hback : b + bytes - (l.back + bytes) = b - l.back := by omega
  refine ⟨Nat.add_le_add_right h.back_le bytes, ?_, ?_, ?_, ?_, ?_, ?_⟩
  · rw [hdepth]
    exact h.depth_le
  all_goals
    simp only [LoopSite.after, hback]
    rw [haround]
  · exact h.around_pos
  · exact h.captured_lt
  · exact fun k hk hflagged => h.covered k hk (hflagged.follows hf.current)
  · exact fun υ hυ => hlands _ _ (h.continues υ hυ)
  · exact fun υ hυ => hbreaks _ (h.breaks υ hυ)

theorem InLoop.parts {l : Option LoopSite} (h : ∀ site, l = some site → InLoop w captured b σ σ' site)
    (hdepth : σ1.current.depth = σ.current.depth)
    (haround : ∀ site, l = some site → σ1.current.around site.depth = σ.current.around site.depth)
    (hf : σ2.Follows σ') {bytes b' : Nat} (hbase : b' = b + bytes)
    (hlands : ∀ target υ, w.lands target υ → w'.lands target υ) (hbreaks : ∀ υ, w.breaks υ → w'.breaks υ) :
    ∀ site, l.map (·.after bytes) = some site → InLoop w' captured b' σ1 σ2 site := by
  intro site hsite
  obtain ⟨site, rfl, rfl⟩ := Option.map_eq_some_iff.mp hsite
  rw [hbase]
  exact (h site rfl).part hdepth (haround site rfl) hf bytes hlands hbreaks

theorem InLoop.before {l} (h : ∀ site, l = some site → InLoop w captured b σ σ' site)
    (hf : σ2.Follows σ') : ∀ site, l = some site → InLoop w captured b σ σ2 site :=
  fun site hsite => (h site hsite).part rfl rfl hf 0 (fun _ _ => id) fun _ => id

/-! ### Statements -/

theorem Runs.append {l : Option LoopSite} (h : Runs l σ ps σ1) (h' : Runs (l.map (·.after (Pieces.size ps))) σ1 qs σ')
    (hd : σ.Declares σ1) (hd' : σ1.Declares σ')
    (haround : ∀ site, l = some site → σ1.current.around site.depth = σ.current.around site.depth) :
    Runs l σ (ps ++ qs) σ' := by
  intro r w b captured n n' hr hkind hin hcaptured hn hn'
  have hle : n ≤ σ1.current.locals.length := by
    obtain ⟨new, old, hsplit, hold, _⟩ := hd.follows.current.locals
    rw [hsplit, length_append, ← hold.length_eq, hn]
    omega
  refine (h (hd'.follows.retains.extends hr) hkind (InLoop.before hin hd'.follows) hcaptured hn rfl).append (h' hr ?_
    (InLoop.parts hin hd.follows.current.depth_eq haround (.refl σ') rfl (fun _ _ => id) fun _ => id)
    (fun k hk => Nat.lt_of_lt_of_le (hcaptured k hk) hle) rfl hn')
  rw [hd.follows.current.kind_eq]
  exact hkind

theorem Pushes.traces_locals (h : σ.Pushes is count σ') (he : σ.Performs σ') (hr : r.Extends σ')
    (hkind : σ.current.kind ≠ .object) (w : Ways) (b : Nat) (captured : Set Nat) :
    Traces r w b (σ.current.shape captured σ.current.locals.length σ.current.locals.length) (written is)
      (σ'.current.shape captured σ.current.locals.length (σ.current.locals.length + count)) := by
  have hkind' : σ'.current.kind ≠ .object := he.follows.current.kind_eq ▸ hkind
  have hpos := he.settled.locals_pos
  rw [he.length_eq] at hpos
  exact h hr (he.length_eq ▸ sees_locals hkind') hpos (Nat.le_refl _)

theorem Pushes.runs_pop {l} (h : σ.Pushes is 1 σ') (he : σ.Performs σ') : Runs l σ (written (is ++ [.pop])) σ' := by
  intro r w b captured n n' hr hkind hin hcaptured hn hn'
  rw [hn', he.length_eq, hn, written_append]
  have hpos := he.settled.locals_pos
  rw [he.length_eq] at hpos
  exact (h.traces_locals he hr hkind w b captured).append (.pop hpos (fun _ hk => hk.1) (Nat.le_refl _))

theorem Pushes.runs_ret {l} (h : σ.Pushes is 1 σ') (he : σ.Performs σ') : Runs l σ (written (is ++ [.ret])) σ' := by
  intro r w b captured n n' hr hkind hin hcaptured hn hn'
  rw [hn, written_append]
  have hpos := he.settled.locals_pos
  rw [he.length_eq] at hpos
  refine (h.traces_locals he hr hkind w b captured).append
    (.single ⟨Scope.shape_proper hpos (Nat.le_succ _), ⟨trivial, ?_⟩, nofun, nofun, nofun⟩)
  have hkind' : r.kind ≠ .object := by
    rw [hr.kind_eq, he.follows.current.kind_eq]
    exact hkind
  exact (if_neg hkind').mpr (Nat.lt_succ_self _)

theorem Pushes.runs_defineGlobal {l} {name : Nat} (h : σ.Pushes is 1 σ') (he : σ.Performs σ')
    (hname : σ'.current.toRoutine.HasConstant name Constant.IsText) :
      Runs l σ (written (is ++ [.defineGlobal name])) σ' := by
  intro r w b captured n n' hr hkind hin hcaptured hn hn'
  rw [hn', he.length_eq, hn, written_append]
  have hpos := he.settled.locals_pos
  rw [he.length_eq] at hpos
  obtain ⟨c, hget, hc⟩ := hname
  exact (h.traces_locals he hr hkind w b captured).append (.compute (i := .defineGlobal name) hpos (fun _ hk => hk.1)
    (Nat.le_refl _) (fun _ => rfl) ⟨c, hr.constants _ _ hget, hc⟩ (Nat.le_refl _) nofun)

theorem runs_nil (l : Option LoopSite) (σ : Scopes) : Runs l σ [] σ := by
  intro r w b captured n n' hr hkind hin hcaptured hn hn'
  rw [hn, hn']
  exact .nil (.refl _)

def leaveBlock (σ : Scopes) : Scopes := σ.onCurrent fun s =>
  { s with depth := σ.current.depth - 1, locals := s.locals.dropWhile (σ.current.depth - 1 < ·.depth) }

theorem runs_block {l} (hσ : σ.Settled) (hd : σ.beginBlock.Declares σ1)
    (h : σ.beginBlock.InBlock l → Runs l σ.beginBlock ps σ1) :
    Runs l σ (ps ++ written ((σ1.current.deeperThan (σ1.current.depth - 1)).map Local.leave)) σ1.leaveBlock := by
  intro r w b captured n n' hr hkind hin hcaptured hn hn'
  have hdepth : σ1.current.depth - 1 = σ.current.depth := by
    have heq : σ1.current.depth = σ.current.depth + 1 := hd.follows.current.depth_eq
    omega
  obtain ⟨old, hold, hsplit, hdrop⟩ := deeperThan_of_block hσ hd.follows
  have hlength : old.length = n := by rw [← hold.length_eq, hn]
  have haround : σ1.current.around σ.current.depth = n := by rw [Scope.around, hdrop, hlength]
  have hlocals : σ1.leaveBlock.current.locals = old := by rw [← hdrop, ← hdepth]; rfl
  -- The locals that stay are the same before and after the block is left.
  have hflags : ∀ {s : Scope}, s.locals = old → ∀ k < n, σ1.current.Flagged k → s.Flagged k :=
    fun hs k hk hflagged => Scope.flagged_of_append hsplit (hs.trans (nil_append old).symm)
      (hlength.symm ▸ hk) hflagged
  have hin1 : ∀ site, l = some site → InLoop w captured b σ.beginBlock σ1 site := by
    intro site hsite
    have hl := hin site hsite
    have hle := hl.depth_le
    refine ⟨hl.back_le, ?_, hl.around_pos, hl.captured_lt, fun k hk hflagged => ?_, hl.continues, hl.breaks⟩
    · show site.depth ≤ σ.current.depth + 1
      omega
    · exact hl.covered k hk (hflags hlocals k (hn ▸ Nat.lt_of_lt_of_le hk (Scope.around_le _ _)) hflagged)
  have hbody := h (fun site hsite => Int.lt_add_one_of_le (hin site hsite).depth_le) (r := r) (w := w)
    ⟨hr.kind_eq, hr.captures_le, hr.constants⟩ hkind hin1 hcaptured hn rfl
  have hpos : 0 < n := hn ▸ hσ.locals_pos
  have hleave := Scope.traces_leaving (r := r) (w := w) (b := b + Pieces.size ps) σ1.current σ.current.depth
    (haround.symm ▸ hcaptured) (haround.symm ▸ hpos)
  rw [haround] at hleave
  rw [hn', hlocals, hlength, hdepth]
  exact (hbody.append hleave).weaken (.refl _) (Scope.shape_flows (Nat.le_refl n) (hflags hlocals))

theorem runs_conditional {l : Option LoopSite} {test yes no} (he : σ.Performs σ1)
    (hp2 : σ1.Performs σ2) (hp3 : σ2.Performs σ3) (htest : σ.Pushes test 1 σ1)
    (hyes : Runs (l.map (·.after (Code.length test + 4))) σ1 yes σ2)
    (hno : Runs (l.map (·.after (Code.length test + 4 + Pieces.size yes + 4))) σ2 no σ3) :
    Runs l σ (written (test ++ [.jumpIfFalse (Pieces.size yes + 4), .pop]) ++ yes ++
      written [.jump (Pieces.size no + 1), .pop] ++ no) σ3 := by
  intro r w b captured n n' hr hkind hin hcaptured hn hn'
  have hp1 := he
  have hn1 : n = σ1.current.locals.length := hn.trans hp1.length_eq.symm
  have hn2 : n = σ2.current.locals.length := hn1.trans hp2.length_eq.symm
  have hpos : 0 < n := hn1 ▸ he.settled.locals_pos
  have hkind1 : σ1.current.kind ≠ .object := he.follows.current.kind_eq ▸ hkind
  have hkind2 : σ2.current.kind ≠ .object := hp2.follows.current.kind_eq ▸ hkind1
  have hr2 := hp3.follows.retains.extends hr
  have hr1 := hp2.follows.retains.extends hr2
  have hproper : ∀ s : Scope, (s.shape captured n (n + 1)).Proper := fun s => Scope.shape_proper hpos (Nat.le_succ n)
  have hlast : n' = n := by rw [hn', hp3.length_eq, ← hn2]
  rw [hlast]
  have hdepth1 := hp1.follows.current.depth_eq
  have hdepth2 := hp2.follows.current.depth_eq.trans hdepth1
  have haround1 : ∀ site, l = some site → σ1.current.around site.depth = σ.current.around site.depth :=
    fun site _ => hp1.around_eq site.depth
  have haround2 : ∀ site, l = some site → σ2.current.around site.depth = σ.current.around site.depth :=
    fun site _ => (hp1.trans hp2).around_eq site.depth
  have hsplit : written (test ++ [.jumpIfFalse (Pieces.size yes + 4), .pop]) ++ yes ++
      written [.jump (Pieces.size no + 1), .pop] ++ no =
      (written test ++ [.write (.jumpIfFalse (Pieces.size yes + 4))] ++ [.write .pop] ++ yes ++
        [.write (.jump (Pieces.size no + 1))]) ++ ([.write .pop] ++ no) := by simp
  have hpop : ∀ {w : Ways} {b : Nat} (s : Scope),
      Traces r w b (s.shape captured n (n + 1)) [.write .pop] (s.shape captured n n) :=
    fun _ => .pop hpos (fun _ hk => hk.1) (Nat.le_refl n)
  rw [hsplit]
  refine .atEnd (.seam (υ := σ2.current.shape captured n (n + 1)) (.append (υ := σ2.current.shape captured n n)
    (.append (.append (.append (υ := σ1.current.shape captured n (n + 1)) ?_ ?_) (hpop σ1.current)) ?_) ?_)
    (.append (hpop σ2.current) ?_))
  · have htraces := htest.traces_locals he hr1 hkind w b captured
    rw [← hn] at htraces
    exact (htraces.labelled _ _).labelled _ _
  · refine .branch (hproper σ1.current) rfl (Nat.lt_succ_self n) fun υ hυ => .inr ⟨?_, ?_⟩
    · simp
      omega
    · exact hυ.trans (hp2.follows.current.shape_flows captured n (n + 1))
  · refine hyes hr2 hkind1 (InLoop.parts hin hdepth1 haround1 hp3.follows ?_ (fun _ _ hυ => .inl (.inl hυ)) fun _ => id)
      hcaptured hn1 hn2
    simp
  · refine .jump (σ := σ2.current.shape captured n n) (Scope.shape_proper hpos (Nat.le_refl n)) rfl fun υ hυ =>
      .inl (.inr ⟨?_, ?_⟩)
    · simp
      omega
    · exact hυ.trans (hp3.follows.current.shape_flows captured n n)
  · refine hno hr hkind2 (InLoop.parts hin hdepth2 haround2 (.refl σ3) ?_ (fun _ _ hυ => .inl (.inl hυ)) fun _ => id)
      hcaptured hn2 (hlast.symm.trans hn')
    simp
    omega

/-! ### Locals -/

theorem sees_of_undefined (hkind : σ.current.kind ≠ .object) (hlocals : σ.current.locals = x :: rest)
    (hx : x.isDefined = false) : σ.Sees rest.length := by
  refine ⟨fun k l hget hdefined => ?_, fun hobject => absurd hobject hkind⟩
  have hlt : k < rest.length + 1 := by
    have hlt := Scope.lt_of_localAt? hget
    rwa [hlocals] at hlt
  refine Nat.lt_of_le_of_ne (Nat.le_of_lt_succ hlt) ?_
  rintro rfl
  rw [Scope.localAt?_length (hlocals.trans (nil_append _).symm)] at hget
  cases hget
  exact absurd (hdefined.symm.trans hx) nofun

theorem define_retains (σ : Scopes) : σ.Retains σ.define ∧
    σ.define.current.draft.constants = σ.current.draft.constants := by
  have hdefine : ∃ locals, σ.current.define = { σ.current with locals } := by
    unfold Scope.define
    split
    · exact ⟨_, rfl⟩
    · split
      · exact ⟨_, rfl⟩
      · exact ⟨_, rfl⟩
  obtain ⟨locals, hlocals⟩ := hdefine
  have heq : σ.define = ⟨{ σ.current with locals }, σ.enclosing⟩ := congrArg (Scopes.mk · σ.enclosing) hlocals
  rw [heq]
  exact ⟨⟨rfl, rfl, prefix_rfl, fun _ _ h => h, Scope.Touched.refl_all _⟩, rfl⟩

theorem runs_localVariable {l} {x : String} (hσ : σ.Settled) (hdepth : 0 < σ.current.depth)
    (hdeclare : σ.declare? x = some σ1) (he : σ1.Performs σ2) (h : σ1.Pushes is 1 σ2) :
    Runs l σ (written is) σ2.define := by
  intro r w b captured n n' hr hkind _ hcaptured hn hn'
  obtain ⟨-, hlength⟩ := declares_local hσ hdepth hdeclare he
  obtain ⟨-, rfl⟩ := declare?_eq_some hdeclare
  obtain ⟨x', rest, hx', hrest, hlocals⟩ := forall₂_cons_left_iff.mp he.marks
  have hn2 : rest.length = n := by rw [← hrest.length_eq, hn]
  have hkind2 : σ2.current.kind ≠ .object := by
    rw [he.follows.current.kind_eq]
    exact hkind
  have hdepth2 : 0 < σ2.current.depth := by
    rw [he.follows.current.depth_eq]
    exact hdepth
  have hsees : σ2.Sees n := hn2 ▸ sees_of_undefined hkind2 hlocals (hx'.isDefined_eq.trans rfl)
  refine (h ((define_retains σ2).1.extends hr) hsees (hn ▸ hσ.locals_pos) (Nat.le_refl n)).weaken
    (Scope.shape_flows (Nat.le_refl n) fun k hk hk' => ?_) ?_
  · exact Scope.flagged_of_append (nil_append _).symm (singleton_append).symm (hn ▸ hk) hk'
  · rw [hn', hlength, ← hn, define_eq hdepth2 hlocals]
    refine Scope.shape_flows (Nat.le_succ n) fun k hk hk' => ?_
    exact Scope.flagged_of_append (hlocals.trans singleton_append.symm) singleton_append.symm (hn2 ▸ hk) hk'

/-! ### Loops -/

/-- A jump that leaves the innermost loop, or goes on with it, takes the locals declared in the loop
off the stack. -/
theorem InLoop.traces_leaving (h : InLoop w captured b σ σ l) :
    Traces r w b (σ.current.shape captured σ.current.locals.length σ.current.locals.length)
      (written ((σ.current.deeperThan l.depth).map Local.leave))
      (.above (σ.current.around l.depth) captured (σ.current.around l.depth)) := by
  have hleave := Scope.traces_leaving (r := r) (w := w) (b := b) σ.current l.depth h.captured_lt h.around_pos
  rwa [Scope.shape_eq_above (n := σ.current.around l.depth) h.captured_lt h.covered] at hleave

theorem runs_break (l : LoopSite) (σ : Scopes) :
    Runs (some l) σ (written ((σ.current.deeperThan l.depth).map Local.leave) ++ [.break_]) σ := by
  intro r w b captured n n' hr hkind hin hcaptured hn hn'
  have hl := hin l rfl
  rw [hn]
  exact hl.traces_leaving.append (.break_ (Shape.above_proper hl.around_pos hl.captured_lt (Nat.le_refl _))
    (hl.breaks _ (.refl _)))

theorem runs_continue (l : LoopSite) (σ : Scopes) :
    Runs (some l) σ (written ((σ.current.deeperThan l.depth).map Local.leave ++
      [.loop (l.back + Code.length ((σ.current.deeperThan l.depth).map Local.leave) + 3)])) σ := by
  intro r w b captured n n' hr hkind hin hcaptured hn hn'
  have hl := hin l rfl
  have hle := hl.back_le
  rw [hn, written_append]
  refine hl.traces_leaving.append (.loop (Shape.above_proper hl.around_pos hl.captured_lt (Nat.le_refl _)) rfl ?_
    fun υ hυ => ?_)
  · rw [Pieces.size_written]
    omega
  · have htarget : ∀ m, b + m + 3 - (l.back + m + 3) = b - l.back := fun m => by omega
    rw [Pieces.size_written, htarget]
    exact hl.continues υ hυ

end Scopes

/-! ### Loops as a whole -/

/-- The parts of a loop with or without a condition and a step: the test in front of a remainder of the
given size, the step, what stands behind the loop, and how far in front of the body `continue` goes. -/
def loopTest (rest : Nat) : Option (List Instruction) → List Instruction
  | none => []
  | some test => test ++ [.jumpIfFalse (rest + 1), .pop]

def loopStep (test : Option (List Instruction)) : Option (List Instruction) → List Instruction
  | none => []
  | some step => .jump (Code.length step + 4) :: step ++ [.pop, .loop (Generate.testSize test + Code.length step + 7)]

def loopExit : Option (List Instruction) → List Instruction
  | none => []
  | some _ => [.pop]

def loopBack (test : Option (List Instruction)) : Option (List Instruction) → Nat
  | none => Generate.testSize test
  | some step => Code.length step + 4

namespace Scopes

variable {σ σ1 σ2 σ3 σ' : Scopes}

/-- The body of a loop and the jump back behind it, which come after the places they go to. -/
theorem Runs.traces_body {back exit : Nat} {τ : Shape} (h : Runs (some ⟨σ.current.depth, back⟩) σ ps σ')
    (hσ : σ.Settled) (hr : r.Extends σ') (hkind : σ.current.kind ≠ .object) (hn : n = σ.current.locals.length)
    (hn' : n = σ'.current.locals.length) (hcaptured : ∀ k ∈ captured, k < n) (hf : σ.Follows σ')
    (hcovered : ∀ k < n, σ'.current.Flagged k → k ∈ captured) (hback : back ≤ b)
    (hcontinue : ∀ υ, υ.Flows (.above n captured n) → w.lands (b - back) υ)
    (hexit : ∀ υ, υ.Flows (.above n captured n) → w.lands (b + Pieces.size ps + exit) υ) :
    Traces r w b (.above n captured n)
      (written (Pieces.aimed exit ps) ++ [.write (.loop (back + Pieces.size ps + 3))]) τ := by
  have hpos : 0 < n := hn ▸ hσ.locals_pos
  have haround : σ.current.around σ.current.depth = n := by
    rw [hn]
    exact congrArg List.length (split_at_depth (forall_mem_nil fun x : Local => _ < x.depth) hσ.depth_le).2
  have hbody : Traces r { w with breaks := (·.Flows (.above n captured n)) } b (σ.current.shape captured n n) ps
      (σ'.current.shape captured n n) := h hr hkind (by
      rintro _ ⟨⟩
      exact ⟨hback, Int.le_refl _, haround.symm ▸ hpos, haround.symm ▸ hcaptured, haround.symm ▸ hcovered,
        haround.symm ▸ hcontinue, haround.symm ▸ fun _ hυ => hυ⟩) hcaptured hn hn'
  rw [Scope.shape_eq_above hcaptured fun k hk hflagged => hcovered k hk (hflagged.follows hf.current),
    Scope.shape_eq_above hcaptured hcovered] at hbody
  have haimed : Traces r w b (.above n captured n) (written (Pieces.aimed exit ps)) (.above n captured n) :=
    (hbody.aimed exit (fun _ hυ => hυ) rfl).mono (by
      rintro _ υ (hυ | ⟨rfl, hυ⟩)
      · exact hυ
      · exact hexit υ hυ) fun _ => id
  refine haimed.append (.loop (Shape.above_proper hpos hcaptured (Nat.le_refl n)) rfl ?_ fun υ hυ => ?_)
  · rw [Pieces.size_written, Pieces.length_aimed]
    omega
  · have htarget : ∀ m, b + m + 3 - (back + m + 3) = b - back := fun m => by omega
    rw [Pieces.size_written, Pieces.length_aimed, htarget]
    exact hcontinue υ hυ

theorem runs_loop {l test step body} {rest : Nat}
    (hrest : rest = Code.length (loopStep test step) + Pieces.size body + 3)
    (he1 : σ.Performs σ1) (he2 : σ1.Performs σ2) (hp3 : σ2.Performs σ3)
    (htest : ∀ is, test = some is → σ.Pushes is 1 σ1) (hstep : ∀ is, step = some is → σ1.Pushes is 1 σ2)
    (hbody : Runs (some ⟨σ2.current.depth, loopBack test step⟩) σ2 body σ3) :
    Runs l σ (written (loopTest rest test ++ loopStep test step ++
      Pieces.aimed (Code.length (loopExit test) + 3) body ++
      .loop (loopBack test step + Pieces.size body + 3) :: loopExit test)) σ3 := by
  intro r w b captured n n' hr hkind hin hcaptured hn hn'
  have hn1 : n = σ1.current.locals.length := hn.trans he1.length_eq.symm
  have hn2 : n = σ2.current.locals.length := hn1.trans he2.length_eq.symm
  have hn3 : n = σ3.current.locals.length := hn2.trans hp3.length_eq.symm
  have hpos : 0 < n := hn1 ▸ he1.settled.locals_pos
  have hkind1 : σ1.current.kind ≠ .object := he1.follows.current.kind_eq ▸ hkind
  have hkind2 : σ2.current.kind ≠ .object := he2.follows.current.kind_eq ▸ hkind1
  have hr2 := hp3.follows.retains.extends hr
  have hr1 := he2.follows.retains.extends hr2
  -- What is marked in the end counts as captured from the start of the loop on.
  obtain ⟨marked, hmarked⟩ : ∃ marked : Set Nat, marked = {k | k < n ∧ (k ∈ captured ∨ σ3.current.Flagged k)} :=
    ⟨_, rfl⟩
  have hlt : ∀ k ∈ marked, k < n := fun k hk => by
    rw [hmarked] at hk
    exact hk.1
  have hcovered : ∀ k < n, σ3.current.Flagged k → k ∈ marked := fun k hk hflagged => by
    rw [hmarked]
    exact ⟨hk, .inr hflagged⟩
  have hshape : ∀ {s : Scopes} (h : Nat), s.Follows σ3 → s.current.shape marked n h = .above n marked h :=
    fun h hf => Scope.shape_eq_above hlt fun k hk hflagged => hcovered k hk (hflagged.follows hf.current)
  have hf2 := hp3.follows
  have hf1 := he2.follows.trans hf2
  have hf := he1.follows.trans hf1
  have hstart : (σ.current.shape captured n n).Flows (.above n marked n) := by
    refine ⟨rfl, Nat.le_refl n, fun k hk => ?_, .inl rfl⟩
    rw [hmarked]
    exact ⟨hk.1, hk.2.imp id (·.follows hf.current)⟩
  have hend : σ3.current.shape captured n' n' = .above n marked n := by
    rw [hmarked, hn', ← hn3]
    rfl
  have hproper : ∀ {h : Nat}, n ≤ h → (Shape.above n marked h).Proper := Shape.above_proper hpos hlt
  have hpop : ∀ {w : Ways} {b : Nat}, Traces r w b (.above n marked (n + 1)) [.write .pop] (.above n marked n) :=
    .pop hpos hlt (Nat.le_refl n)
  have hfront : Code.length (loopTest rest test) = Generate.testSize test := by
    cases test with
    | none => rfl
    | some is =>
      rw [loopTest, Code.length_append]
      rfl
  -- The step and the body, which go back to the start of the loop and on to its end
  have htail : ∀ {w : Ways} {τ : Shape}, (∀ υ, υ.Flows (.above n marked n) → w.lands b υ) →
      (∀ υ, υ.Flows (.above n marked n) → w.lands (b + Generate.testSize test + rest + Code.length (loopExit test)) υ) →
      Traces r w (b + Generate.testSize test) (.above n marked n) (written (loopStep test step) ++
        (written (Pieces.aimed (Code.length (loopExit test) + 3) body) ++
          [.write (.loop (loopBack test step + Pieces.size body + 3))])) τ := by
    intro w τ hstart hexit
    cases step with
    | none =>
      refine hbody.traces_body he2.settled hr hkind2 hn2 hn3 hlt hf2 hcovered (Nat.le_add_left _ _) (fun υ hυ => ?_)
        fun υ hυ => ?_
      · rw [loopBack, Nat.add_sub_cancel]
        exact hstart υ hυ
      · have hplace := hexit υ hυ
        rw [hrest] at hplace
        simpa [loopStep, Nat.add_assoc, Nat.add_comm, Nat.add_left_comm] using hplace
    | some is =>
      have hsplit : written (loopStep test (some is)) = [.write (.jump (Code.length is + 4))] ++
          (written is ++ [.write .pop] ++ [.write (.loop (Generate.testSize test + Code.length is + 7))]) := by
        simp [loopStep]
      have hlevel := hproper (Nat.le_refl n)
      have hpush : ∀ {w : Ways} {b : Nat}, Traces r w b (.above n marked n) (written is) (.above n marked (n + 1)) := by
        intro w b
        have htraces := (hstep is rfl).traces_locals he2 hr2 hkind1 w b marked
        rwa [← hn1, hshape n hf1, hshape (n + 1) hf2] at htraces
      rw [hsplit, append_assoc]
      refine .seams (υ := .above n marked n) (ν := .above n marked n) (.jump hlevel rfl fun υ hυ => .inr ⟨?_, hυ⟩)
        (.append (.append hpush hpop) (.loop hlevel rfl ?_ fun υ hυ => .inl (.inl ?_)))
          (hbody.traces_body he2.settled hr
          hkind2 hn2 hn3 hlt hf2 hcovered ?_ (fun υ hυ => .inl (.inr ⟨?_, hυ⟩)) fun υ hυ => .inl (.inl ?_))
      · simp
      · simp
        omega
      · convert hstart υ hυ using 1
        simp
        omega
      · simp [loopBack]
      · simp [loopBack]
      · have hlength : Code.length (loopStep test (some is)) = Code.length is + 7 := by
          rw [loopStep, cons_append, Code.length_cons, Code.length_append]
          exact Nat.add_comm 3 (Code.length is + 4)
        convert hexit υ hυ using 1
        rw [hrest, hlength]
        simp
        omega
  rw [hend]
  refine Traces.weaken ?_ hstart (.refl _)
  have hsize : Pieces.size (written (loopTest rest test) ++ (written (loopStep test step) ++
      (written (Pieces.aimed (Code.length (loopExit test) + 3) body) ++
        [.write (.loop (loopBack test step + Pieces.size body + 3))]))) = Generate.testSize test + rest := by
    rw [Pieces.size_append, Pieces.size_written, hfront, hrest]
    simp [Pieces.length_aimed]
    omega
  have hsplit : written
      (loopTest rest test ++ loopStep test step ++ Pieces.aimed (Code.length (loopExit test) + 3) body ++
      .loop (loopBack test step + Pieces.size body + 3) :: loopExit test) =
      (written (loopTest rest test) ++ (written (loopStep test step) ++
        (written (Pieces.aimed (Code.length (loopExit test) + 3) body) ++
          [.write (.loop (loopBack test step + Pieces.size body + 3))]))) ++ written (loopExit test) := by
    simp
  rw [hsplit]
  refine .atEnd (.atStart ?_)
  cases test with
  | none =>
    have hnone : written (loopExit none) = [] := rfl
    rw [hnone, append_nil, hsize]
    refine htail (fun υ hυ => .inr ⟨rfl, hυ⟩) fun υ hυ => .inl (.inr ⟨?_, hυ⟩)
    exact Nat.add_assoc b (Generate.testSize none) rest
  | some is =>
    have hfront' : written (loopTest rest (some is)) = written is ++ [.write (.jumpIfFalse (rest + 1))]
        ++ [.write .pop] := by
      simp [loopTest]
    refine .seam (υ := .above n marked (n + 1)) (.append (υ := .above n marked n) ?_ ?_) hpop
    · rw [hfront']
      refine .append (.append ?_ (.branch (hproper (Nat.le_succ n)) rfl (Nat.lt_succ_self n) fun υ hυ => ?_)) hpop
      · have htraces := (htest is rfl).traces_locals he1 hr1 hkind w b marked
        rw [← hn, hshape n hf, hshape (n + 1) hf1] at htraces
        exact ((htraces.labelled _ _).labelled _ _).labelled _ _
      · refine .inr ⟨?_, hυ⟩
        rw [← hfront', hsize, Pieces.size_written, Generate.testSize]
        omega
    · rw [Pieces.size_written, hfront]
      refine htail (fun υ hυ => .inl (.inr ⟨rfl, hυ⟩)) fun υ hυ => .inl (.inl (.inr ⟨?_, hυ⟩))
      rw [Pieces.size_append, hsize, Pieces.size_written, ← Nat.add_assoc, ← Nat.add_assoc]

end Scopes

end Mudscript
