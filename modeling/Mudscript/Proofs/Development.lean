import Mudscript.Proofs.Decoding
import Mudscript.Proofs.Scoping

/-!
# How scopes develop

While a construct is compiled its function gains constants, captures and, in declarations, locals; the
locals it had stay where they are and may become captured. The functions around it gain captures and
captured locals, and nothing is written to them. `Scopes.Follows` says this of the scopes before and
after, and `Scopes.Settled` is what holds of the scopes at every point.
-/

namespace Mudscript

open List

variable {c : Capture} {access : Compile.Access} {k : Constant} {p : Constant → Prop} {depth : Int}
    {l : Local} {index : Nat}

variable {loops : List Loop} {s s' s'' s1 s2 : Scopes} {name : String}

/-- Of a function under compilation, before and after a construct in it. -/
structure Scope.Follows (s s' : Scope) : Prop where
  kind_eq : s'.kind = s.kind
  name_eq : s'.name = s.name
  owner_eq : s'.owner = s.owner
  arity_eq : s'.arity = s.arity
  depth_eq : s'.depth = s.depth
  locals : ∃ new old, s'.locals = new ++ old ∧ Marks s.locals old ∧ ∀ l ∈ new, l.depth = s.depth
  captures : s.captures.toList <+: s'.captures.toList
  constants : ∀ (i : Nat) c, s.draft.constants[i]? = some c → s'.draft.constants[i]? = some c

def RoutineKind.HasReceiver (kind : RoutineKind) : Prop := kind = .method ∨ kind = .object

def Scope.Rooted (s : Scope) : Prop :=
  ∃ l, s.localAt? 0 = some l ∧ (s.kind.HasReceiver → l.name = receiverName) ∧
    (¬ s.kind.HasReceiver → l.name = "")

namespace Scopes

structure Follows (s s' : Scopes) : Prop where
  current : s.current.Follows s'.current
  enclosing : List.Forall₂ Scope.Touched s.enclosing s'.enclosing

structure Settled (s : Scopes) : Prop where
  depth_nonneg : 0 ≤ s.current.depth
  depth_le : ∀ l ∈ s.current.locals, l.depth ≤ s.current.depth
  rooted : s.current.Rooted
  chained : Chained s.current s.enclosing
  fits : ∀ e ∈ s.current :: s.enclosing, e.Fits

end Scopes

/-! ### Following -/

theorem Scope.Follows.refl (s : Scope) : s.Follows s :=
  ⟨rfl, rfl, rfl, rfl, rfl, ⟨[], s.locals, rfl, .refl _, fun _ h => nomatch h⟩, prefix_rfl,
    fun _ _ h => h⟩

theorem Marks.append_inv {new old ls} (h : Marks (new ++ old) ls) :
    ∃ new' old', ls = new' ++ old' ∧ Marks new new' ∧ Marks old old' := by
  induction new generalizing ls with
  | nil => exact ⟨[], ls, rfl, .nil, h⟩
  | cons l new ih =>
    cases h with
    | cons hl hrest =>
      obtain ⟨new', old', rfl, hnew, hold⟩ := ih hrest
      exact ⟨_ :: new', old', rfl, .cons hl hnew, hold⟩

theorem Marks.depth_eq {ls ls'} (h : Marks ls ls') (heq : ∀ l ∈ ls, l.depth = depth) : ∀ l ∈ ls', l.depth = depth := by
  induction h with
  | nil => exact heq
  | cons hl _ ih =>
    rw [forall_mem_cons] at heq ⊢
    exact ⟨hl.depth_eq.trans heq.1, ih heq.2⟩

theorem Scope.Follows.trans {s s' s'' : Scope} (h : s.Follows s') (h' : s'.Follows s'') : s.Follows s'' := by
  refine ⟨h'.kind_eq.trans h.kind_eq, h'.name_eq.trans h.name_eq, h'.owner_eq.trans h.owner_eq,
    h'.arity_eq.trans h.arity_eq, h'.depth_eq.trans h.depth_eq, ?_, h.captures.trans h'.captures,
    fun i c hc => h'.constants i c (h.constants i c hc)⟩
  obtain ⟨new, old, hsplit, hold, hnew⟩ := h.locals
  obtain ⟨new', old', hsplit', hold', hnew'⟩ := h'.locals
  rw [hsplit] at hold'
  obtain ⟨new1, old1, rfl, hnew1, hold1⟩ := hold'.append_inv
  refine ⟨new' ++ new1, old1, ?_, hold.trans hold1, fun l hl => ?_⟩
  · rw [hsplit', append_assoc]
  · rcases mem_append.mp hl with hl | hl
    · rw [hnew' l hl, h.depth_eq]
    · exact hnew1.depth_eq hnew l hl

theorem Scope.Touched.follows {s s' : Scope} (h : s.Touched s') : s.Follows s' := by
  have hrest := h.rest
  refine ⟨?_, ?_, ?_, ?_, ?_, ⟨[], s'.locals, rfl, h.locals, fun _ h => nomatch h⟩, h.captures, ?_⟩
  · rw [hrest]
  · rw [hrest]
  · rw [hrest]
  · rw [hrest]
  · rw [hrest]
  · rw [hrest]
    exact fun _ _ h => h

theorem Scope.Follows.localAt? {s s' : Scope} (h : s.Follows s') {slot : Nat}
    (hget : s.localAt? slot = some l) : ∃ l', s'.localAt? slot = some l' ∧ l.Marked l' := by
  obtain ⟨new, old, hsplit, hold, _⟩ := h.locals
  exact localAt?_of_append hsplit hold hget

theorem Scope.Rooted.follows {s s' : Scope} (h : s.Rooted) (hf : s.Follows s') : s'.Rooted := by
  obtain ⟨l, hget, hreceiver, hnone⟩ := h
  obtain ⟨l', hget', hmarked⟩ := hf.localAt? hget
  refine ⟨l', hget', ?_, ?_⟩
  · rw [hf.kind_eq, hmarked.name_eq]
    exact hreceiver
  · rw [hf.kind_eq, hmarked.name_eq]
    exact hnone

namespace Scopes

theorem Follows.refl (s : Scopes) : s.Follows s := ⟨.refl _, Scope.Touched.refl_all _⟩

theorem Follows.trans (h : s.Follows s') (h' : s'.Follows s'') : s.Follows s'' :=
  ⟨h.current.trans h'.current, Scope.Touched.trans_all h.enclosing h'.enclosing⟩

theorem Settled.follows (h : s.Settled) (hf : s.Follows s')
    (hchained : Chained s'.current s'.enclosing) (hfits : ∀ e ∈ s'.current :: s'.enclosing, e.Fits) : s'.Settled := by
  refine ⟨?_, ?_, h.rooted.follows hf.current, hchained, hfits⟩
  · rw [hf.current.depth_eq]
    exact h.depth_nonneg
  · obtain ⟨new, old, hsplit, hold, hnew⟩ := hf.current.locals
    rw [hsplit, hf.current.depth_eq]
    intro l hl
    rcases mem_append.mp hl with hl | hl
    · exact Int.le_of_eq (hnew l hl)
    · exact hold.depth_le h.depth_le l hl

/-! ### Writing -/

/-- Only the draft of the current function changes, and its constants stay. -/
structure Writes (s s' : Scopes) : Prop where
  rest : s' = s.withDraft s'.current.draft
  constants : ∀ (i : Nat) c, s.current.draft.constants[i]? = some c →
    s'.current.draft.constants[i]? = some c
  pooled : s.current.draft.Pooled → s'.current.draft.Pooled

theorem Writes.refl (s : Scopes) : s.Writes s := ⟨rfl, fun _ _ h => h, id⟩

theorem Writes.locals_eq (h : s.Writes s') : s'.current.locals = s.current.locals := by
  rw [h.rest]
  rfl

theorem Writes.follows (h : s.Writes s') : s.Follows s' := by
  have hconstants := h.constants
  rw [h.rest] at hconstants ⊢
  exact ⟨⟨rfl, rfl, rfl, rfl, rfl, ⟨[], _, rfl, .refl _, fun _ h => nomatch h⟩, prefix_rfl,
    hconstants⟩, Scope.Touched.refl_all _⟩

theorem Writes.settled (h : s.Writes s') (hs : s.Settled) : s'.Settled := by
  have hpooled := h.pooled
  refine hs.follows h.follows ?_ ?_
  · rw [h.rest]
    exact hs.chained.of_captures_eq rfl
  · have hfits := hs.fits
    rw [forall_fits_cons] at hfits ⊢
    rw [h.rest] at hpooled ⊢
    exact ⟨⟨hfits.1.locals, hfits.1.captures, hpooled hfits.1.pooled⟩, hfits.2⟩

theorem pool?_adds (h : s.pool? k = some (index, s')) : s' = s.withDraft s'.current.draft ∧
      s.current.draft.addConstant k = (.ok index, s'.current.draft) := by
  unfold pool? at h
  split at h
  · rename_i hadd
    cases h
    exact ⟨rfl, hadd⟩
  · cases h

theorem pool?_writes (hs : s.Settled) (h : s.pool? k = some (index, s')) : s.Writes s' := by
  obtain ⟨hrest, hadd⟩ := pool?_adds h
  have hadds := Draft.addConstant_adds (hs.fits _ mem_cons_self).pooled hadd
  exact ⟨hrest, hadds.keeps, fun _ => hadds.pooled⟩

/-! ### Declarations, statements and expressions -/

structure Declares (s s' : Scopes) : Prop where
  settled : s'.Settled
  follows : s.Follows s'

/-- What holds of statements and expressions: none of the locals declared inside is left. -/
structure Performs (s s' : Scopes) : Prop extends Declares s s' where
  length_eq : s'.current.locals.length = s.current.locals.length

theorem Declares.trans (h : s.Declares s') (h' : s'.Declares s'') :
    s.Declares s'' := ⟨h'.settled, h.follows.trans h'.follows⟩

theorem Performs.trans (h : s.Performs s') (h' : s'.Performs s'') :
    s.Performs s'' := ⟨h.toDeclares.trans h'.toDeclares, h'.length_eq.trans h.length_eq⟩

theorem Writes.performs (h : s.Writes s') (hs : s.Settled) : s.Performs s' :=
  ⟨⟨h.settled hs, h.follows⟩, by rw [h.locals_eq]⟩

theorem Performs.writes (h : s.Performs s') (hw : s'.Writes s'') : s.Performs s'' := h.trans (hw.performs h.settled)

theorem Performs.refl (hs : s.Settled) : s.Performs s := (Writes.refl s).performs hs

theorem performs_of_upvalue? {found} (hs : s.Settled) (hname : name ≠ "") (h : s.upvalue? name = (.ok found, s')) :
    s.Performs s' ∧ s'.current.draft = s.current.draft ∧ ∀ index, found = some index →
      captureName s'.current s'.enclosing index = some name := by
  have hcapture : s.current.captureFrom name s.enclosing = (.ok found, s'.current, s'.enclosing) := by
    unfold upvalue? at h
    cases hresult : s.current.captureFrom name s.enclosing with
    | mk result rest =>
      rw [hresult] at h
      cases h
      rfl
  obtain ⟨hsearched, hindex⟩ := Scope.captureFrom_eq_ok hname hcapture
  have hf : s.Follows s' := ⟨hsearched.touched.follows, hsearched.outer_touched⟩
  refine ⟨⟨⟨?_, hf⟩, hsearched.touched.locals_length⟩, ?_, hindex⟩
  · exact hs.follows hf (hsearched.chained hs.chained) (hsearched.fits hs.fits)
  · rw [hsearched.touched.rest]

end Scopes

theorem Resolves.performs {access} (hs : s.Settled)
    (hname : name ≠ "") (h : Resolves s name access s') : s.Performs s' := by
  cases h with
  | local_ _ => exact .refl hs
  | upvalue _ hfound => exact (Scopes.performs_of_upvalue? hs hname hfound).1
  | property _ hfound hpool _ | global _ hfound hpool _ =>
    have hperforms := (Scopes.performs_of_upvalue? hs hname hfound).1
    exact hperforms.writes (Scopes.pool?_writes hperforms.settled hpool)

namespace Scopes

/-! ### New locals -/

def CanDeclare (s : Scopes) : Prop := s.current.kind = .script ∨ 0 < s.current.depth

theorem Declares.canDeclare (h : s.Declares s') (hcan : s.CanDeclare) : s'.CanDeclare := by
  refine hcan.imp (fun hkind => h.follows.current.kind_eq.trans hkind) fun hpos => ?_
  rw [h.follows.current.depth_eq]
  exact hpos

theorem depth_pos_of_not_atGlobalLevel (hs : s.Settled) (hdeclare : s.CanDeclare)
    (h : ¬ s.AtGlobalLevel) : 0 < s.current.depth := by
  rcases hdeclare with hscript | hpos
  · have hne : s.current.depth ≠ 0 := fun hzero => h ⟨hzero, hscript⟩
    have hnonneg := hs.depth_nonneg
    omega
  · exact hpos

theorem define_eq {rest} (hpos : 0 < s.current.depth)
    (hlocals : s.current.locals = l :: rest) : s.define = s.onCurrent fun scope =>
      { scope with locals := { l with depth := scope.depth } :: rest } := by
  have hne : s.current.depth ≠ 0 := by omega
  simp only [define, onCurrent, Scope.define, hne, hlocals]
  rfl

theorem Settled.withLocals (hs : s.Settled) (new : List Local) (hdepth : ∀ l ∈ new, l.depth ≤ s.current.depth)
    (hfew : (new ++ s.current.locals).length ≤ maxSlots) :
    (s.onCurrent fun scope => { scope with locals := new ++ scope.locals }).Settled := by
  have hfits := forall_fits_cons.mp hs.fits
  refine ⟨hs.depth_nonneg, ?_, ?_, hs.chained.of_captures_eq rfl, forall_fits_cons.mpr
    ⟨⟨hfew, hfits.1.captures, hfits.1.pooled⟩, hfits.2⟩⟩
  · intro l hl
    rcases mem_append.mp hl with hl | hl
    · exact hdepth l hl
    · exact hs.depth_le l hl
  · obtain ⟨l, hget, hroot⟩ := hs.rooted
    have hlocals : ({ s.current with locals := new ++ s.current.locals } : Scope).locals
        = new ++ s.current.locals := rfl
    obtain ⟨l', hget', hmarked⟩ := Scope.localAt?_of_append hlocals (Marks.refl _) hget
    refine ⟨l', hget', ?_⟩
    rw [hmarked.name_eq]
    exact hroot

theorem declare?_settled (hs : s.Settled) (h : s.declare? name = some s') : s'.Settled := by
  obtain ⟨hroom, rfl⟩ := declare?_eq_some h
  refine hs.withLocals [⟨name, Local.undefinedDepth, false⟩] ?_ ?_
  · intro l hl
    rw [mem_singleton.mp hl]
    exact Int.le_trans (show Local.undefinedDepth ≤ 0 by decide) hs.depth_nonneg
  · have hle := (hs.fits _ mem_cons_self).locals
    simp only [length_append, length_singleton]
    omega

theorem declares_local (hs : s.Settled)
    (hpos : 0 < s.current.depth) (hdeclare : s.declare? name = some s1) (h : s1.Performs s2) :
    s.Declares s2.define ∧ s2.define.current.locals.length = s.current.locals.length + 1 := by
  obtain ⟨hroom, rfl⟩ := declare?_eq_some hdeclare
  obtain ⟨new, old, hsplit, hold, hnew⟩ := h.follows.current.locals
  have hlength : s2.current.locals.length = s.current.locals.length + 1 := h.length_eq
  have hnil : new = [] := by
    have hcount := hold.length_eq
    rw [hsplit, length_append] at hlength
    simp only [onCurrent, length_cons] at hcount
    exact length_eq_zero_iff.mp (by omega)
  subst hnil
  cases hold with
  | @cons _ l _ rest hl hrest =>
    rw [nil_append] at hsplit
    have hdepth : s2.current.depth = s.current.depth := h.follows.current.depth_eq
    have hdefine := define_eq (by rw [hdepth]; exact hpos) hsplit
    have hf : s.Follows s2.define := by
      have hc := h.follows.current
      rw [hdefine]
      refine ⟨⟨hc.kind_eq, hc.name_eq, hc.owner_eq, hc.arity_eq, hc.depth_eq, ?_, hc.captures,
        hc.constants⟩, h.follows.enclosing⟩
      refine ⟨[{ l with depth := s2.current.depth }], rest, rfl, hrest, ?_⟩
      intro l' hl'
      rw [mem_singleton.mp hl']
      exact hdepth
    have hfits := forall_fits_cons.mp h.settled.fits
    refine ⟨⟨hs.follows hf ?_ ?_, hf⟩, ?_⟩
    · rw [hdefine]
      exact h.settled.chained.of_captures_eq rfl
    · rw [hdefine]
      refine forall_fits_cons.mpr ⟨⟨?_, hfits.1.captures, hfits.1.pooled⟩, hfits.2⟩
      have hle := hfits.1.locals
      rw [hsplit] at hle
      exact hle
    · rw [hdefine]
      rw [hsplit] at hlength
      exact hlength

/-! ### Blocks -/

theorem beginBlock_settled (hs : s.Settled) : s.beginBlock.Settled := by
  have hnonneg := hs.depth_nonneg
  have hfits := forall_fits_cons.mp hs.fits
  refine ⟨?_, fun l hl => ?_, hs.rooted, hs.chained.of_captures_eq rfl,
    forall_fits_cons.mpr ⟨⟨hfits.1.locals, hfits.1.captures, hfits.1.pooled⟩, hfits.2⟩⟩
  · show 0 ≤ s.current.depth + 1
    omega
  · have hle := hs.depth_le l hl
    show l.depth ≤ s.current.depth + 1
    omega

theorem beginBlock_canDeclare (hs : s.Settled) : s.beginBlock.CanDeclare := by
  have hnonneg := hs.depth_nonneg
  exact .inr (show 0 < s.current.depth + 1 by omega)

theorem split_at_depth {new old : List Local} (hnew : ∀ l ∈ new, depth < l.depth) (hold : ∀ l ∈ old, l.depth ≤ depth) :
    (new ++ old).takeWhile (depth < ·.depth) = new ∧ (new ++ old).dropWhile (depth < ·.depth) = old := by
  have hhead : old.takeWhile (depth < ·.depth) = [] ∧ old.dropWhile (depth < ·.depth) = old := by
    cases old with
    | nil => exact ⟨rfl, rfl⟩
    | cons l rest =>
      have hle := hold l mem_cons_self
      have hnot : ¬ depth < l.depth := by omega
      simp [hnot]
  have hall : ∀ l ∈ new, decide (depth < l.depth) = true := fun l hl => decide_eq_true (hnew l hl)
  rw [takeWhile_append_of_pos hall, dropWhile_append_of_pos hall, hhead.1, hhead.2,
    append_nil]
  exact ⟨rfl, rfl⟩

theorem deeperThan_of_block (hs : s.Settled) (h : s.beginBlock.Follows s1) :
    ∃ old, Marks s.current.locals old ∧ s1.current.locals
        = s1.current.deeperThan s.current.depth ++ old ∧
      s1.current.locals.dropWhile (s.current.depth < ·.depth) = old := by
  obtain ⟨new, old, hsplit, hold, hnew⟩ := h.current.locals
  have hdeep : ∀ l ∈ new, s.current.depth < l.depth := by
    intro l hl
    have hdepth : l.depth = s.current.depth + 1 := hnew l hl
    omega
  obtain ⟨htake, hdrop⟩ := split_at_depth hdeep (hold.depth_le hs.depth_le)
  refine ⟨old, hold, ?_, ?_⟩
  · rw [Scope.deeperThan, hsplit, htake]
  · rw [hsplit, hdrop]

/-! ### Functions -/

structure TakesParameters (s s' : Scopes) : Prop where
  settled : s'.Settled
  rest : s' = s.onCurrent fun scope =>
    { scope with arity := s'.current.arity, locals := s'.current.locals }
  count : s'.current.locals.length + s.current.arity = s.current.locals.length + s'.current.arity

theorem TakesParameters.refl (hs : s.Settled) : s.TakesParameters s := ⟨hs, rfl, rfl⟩

theorem TakesParameters.parameter (h : s.TakesParameters s1)
    (hpos : 0 < s.current.depth) (hdeclare : s1.countParameter.declare? name = some s2) :
    s.TakesParameters s2.define := by
  have hs1 : s1.countParameter.Settled := by
    have hs := h.settled
    have hfits := forall_fits_cons.mp hs.fits
    exact ⟨hs.depth_nonneg, hs.depth_le, hs.rooted, hs.chained.of_captures_eq rfl,
      forall_fits_cons.mpr ⟨⟨hfits.1.locals, hfits.1.captures, hfits.1.pooled⟩, hfits.2⟩⟩
  have hpos1 : 0 < s1.countParameter.current.depth := by
    show 0 < s1.current.depth
    rw [h.rest]
    exact hpos
  obtain ⟨hdeclares, hlength⟩ :=
    declares_local hs1 hpos1 hdeclare (.refl (declare?_settled hs1 hdeclare))
  have hlocals : s2.current.locals = ⟨name, Local.undefinedDepth, false⟩ :: s1.current.locals := by
    rw [(declare?_eq_some hdeclare).2]
    rfl
  have heq := define_eq (by rw [(declare?_eq_some hdeclare).2]; exact hpos1) hlocals
  have hcount := h.count
  refine ⟨hdeclares.settled, ?_, ?_⟩
  · rw [heq, (declare?_eq_some hdeclare).2, h.rest]
    rfl
  · have harity : s2.define.current.arity = s1.current.arity + 1 := by
      rw [define_arity, (declare?_eq_some hdeclare).2]
      rfl
    have hsame : s1.countParameter.current.locals.length = s1.current.locals.length := rfl
    omega

theorem start_settled (kind : RoutineKind) (name : String) (owner : Option String)
    {enclosing} (hchained : Chained (.start kind name owner) enclosing)
    (hfits : ∀ e ∈ enclosing, e.Fits) : Settled ⟨.start kind name owner, enclosing⟩ := by
  refine ⟨Int.le_refl _, ?_, ?_, hchained, ?_⟩
  · intro l hl
    rw [mem_singleton.mp hl]
    exact Int.le_refl _
  · refine ⟨_, rfl, ?_, ?_⟩
    · rintro (rfl | rfl) <;> rfl
    · intro h
      cases kind with
      | script | function => rfl
      | method => exact absurd (.inl rfl) h
      | object => exact absurd (.inr rfl) h
  · refine forall_fits_cons.mpr ⟨⟨?_, Nat.zero_le _, Draft.pooled_empty⟩, hfits⟩
    show 1 ≤ maxSlots
    decide

theorem enter_settled (hs : s.Settled) (kind : RoutineKind) (name : String)
    (owner : Option String) : (s.enter kind name owner).Settled :=
  start_settled kind name owner ⟨fun c hc => absurd hc (Array.not_mem_empty c), hs.chained⟩ hs.fits

theorem left_eq {outer : Scope} {rest} (h : s.enclosing = outer :: rest) : s.left = ⟨outer, rest⟩ := by
  rw [left, leave?, h]
  rfl

theorem performs_left (hs : s.Settled) (hs' : s'.Settled)
    (htouched : List.Forall₂ Scope.Touched (s.current :: s.enclosing) s'.enclosing) :
    s'.enclosing = s'.left.current :: s'.left.enclosing ∧ s.Performs s'.left ∧
      s'.left.current.draft = s.current.draft := by
  have hchained := hs'.chained
  have hfits := forall_fits_cons.mp hs'.fits
  cases hsplit : s'.enclosing with
  | nil =>
    rw [hsplit] at htouched
    cases htouched
  | cons outer rest =>
    rw [hsplit] at htouched hchained hfits
    rw [left_eq hsplit]
    cases htouched with
    | cons hcurrent henclosing =>
      have hf : s.Follows ⟨outer, rest⟩ := ⟨hcurrent.follows, henclosing⟩
      refine ⟨rfl, ⟨⟨hs.follows hf hchained.2 hfits.2, hf⟩, hcurrent.locals_length⟩, ?_⟩
      rw [hcurrent.rest]

end Scopes

/-! ### What stays -/

namespace Scopes

/-- The constants and captures of the current function, and the functions around it, are still
there. -/
structure Retains (s s' : Scopes) : Prop where
  kind_eq : s'.current.kind = s.current.kind
  owner_eq : s'.current.owner = s.current.owner
  captures : s.current.captures.toList <+: s'.current.captures.toList
  constants : ∀ (i : Nat) c, s.current.draft.constants[i]? = some c →
    s'.current.draft.constants[i]? = some c
  enclosing : List.Forall₂ Scope.Touched s.enclosing s'.enclosing

theorem Follows.retains (h : s.Follows s') : s.Retains s' :=
  ⟨h.current.kind_eq, h.current.owner_eq, h.current.captures, h.current.constants, h.enclosing⟩

theorem Retains.hasConstant (h : s.Retains s')
    (hc : s.current.toRoutine.HasConstant index p) : s'.current.toRoutine.HasConstant index p := by
  obtain ⟨c, hget, hc⟩ := hc
  exact ⟨c, h.constants index c hget, hc⟩

theorem Retains.inObject_eq (h : s.Retains s') : s'.inObject = s.inObject := by
  have hany : ∀ {outer outer' : List Scope}, List.Forall₂ Scope.Touched outer outer' →
      outer'.any (·.kind = .object) = outer.any (·.kind = .object) := by
    intro outer outer' htouched
    induction htouched with
    | nil => rfl
    | cons he _ ih => rw [any_cons, any_cons, ih, he.rest]
  rw [inObject, inObject, any_cons, any_cons, h.kind_eq, hany h.enclosing]

theorem Performs.marks (h : s.Performs s') : Marks s.current.locals s'.current.locals := by
  obtain ⟨new, old, hsplit, hold, _⟩ := h.follows.current.locals
  have hlength := h.length_eq
  rw [hsplit, length_append, ← hold.length_eq] at hlength
  have hnil : new = [] := length_eq_zero_iff.mp (by omega)
  rw [hsplit, hnil]
  exact hold

theorem pool?_get (hs : s.Settled) (h : s.pool? k = some (index, s')) : s'.current.draft.constants[index]? = some k :=
  (Draft.addConstant_adds (hs.fits _ mem_cons_self).pooled (pool?_adds h).2).get

theorem Settled.lt_of_hasConstant (hs : s.Settled) (h : s.current.toRoutine.HasConstant index p) : index < 65536 := by
  obtain ⟨c, hget, _⟩ := h
  have hlt : index < s.current.draft.constants.size := (Array.getElem?_eq_some_iff.mp hget).1
  have hle := (hs.fits _ mem_cons_self).pooled.size_le
  have hword : maxWord + 1 = 65536 := rfl
  omega

theorem Settled.index_lt (hs : s.Settled) (h : c.RefersTo s.current) : c.index < 256 := by
  have hfits := hs.fits _ mem_cons_self
  unfold Capture.RefersTo at h
  split at h
  · obtain ⟨l, hget, _⟩ := h
    exact Nat.lt_of_lt_of_le (Scope.lt_of_localAt? hget) hfits.locals
  · exact Nat.lt_of_lt_of_le h hfits.captures

end Scopes

theorem Capture.RefersTo.follows {s s' : Scope} (h : c.RefersTo s) (hf : s.Follows s') : c.RefersTo s' :=
  h.mono (fun _ _ => hf.localAt?) hf.captures

def Compile.Access.Valid (s : Scopes) (name : String) : Compile.Access → Prop
  | .local_ slot => ∃ l, s.current.localAt? slot = some l ∧ l.name = name ∧ l.isDefined = true
  | .upvalue index => captureName s.current s.enclosing index = some name
  | .property index => s.current.toRoutine.HasConstant index Constant.IsText
  | .global index => s.current.toRoutine.HasConstant index Constant.IsText ∧ s.inObject = false

theorem Resolves.valid (hs : s.Settled) (hname : name ≠ "") (h : Resolves s name access s') : access.Valid s' name := by
  have htext : ∀ {found index s1}, s.upvalue? name = (.ok found, s1) → s1.pool? (.text name) = some (index, s') →
      s'.current.toRoutine.HasConstant index Constant.IsText := by
    intro found index s1 hfound hpool
    exact ⟨_, Scopes.pool?_get (Scopes.performs_of_upvalue? hs hname hfound).1.settled hpool, name, rfl⟩
  cases h with
  | local_ hslot => exact Scope.slot?_eq_some hslot
  | upvalue _ hfound => exact (Scopes.performs_of_upvalue? hs hname hfound).2.2 _ rfl
  | property _ hfound hpool _ => exact htext hfound hpool
  | global _ hfound hpool hobject => exact ⟨htext hfound hpool, hobject⟩

theorem Compile.Access.Valid.follows (h : access.Valid s name) (hf : s.Follows s') : access.Valid s' name := by
  cases access with
  | local_ slot =>
    obtain ⟨l, hget, hl, hdefined⟩ := h
    obtain ⟨l', hget', hmarked⟩ := hf.current.localAt? hget
    exact ⟨l', hget', hmarked.name_eq.trans hl, hmarked.isDefined_eq.trans hdefined⟩
  | upvalue index => exact captureName_touched hf.current.captures hf.enclosing h
  | property index => exact hf.retains.hasConstant h
  | global index => exact ⟨hf.retains.hasConstant h.1, hf.retains.inObject_eq.trans h.2⟩

end Mudscript

