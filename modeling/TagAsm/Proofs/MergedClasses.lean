import TagAsm.Proofs.Inheritance

/-!
# Merged classes

Merging the classes of a program one by one, each after its ancestors, comes to what their lineages add up to, whatever their
numbers. A class on a circle has no lineage. A circle is found when one comes back to a class that waits for its ancestors: then all
that were seen before are done with, so that no circle is reported twice.
-/

namespace TagAsm.Lower

open TagAsm.Flow List
open Source (ClassDecl Variable FunctionId)

section

variable {prog : Source.Program} {id parent : ClassId} {decl : ClassDecl} {lineage : List ClassDecl}

/-! ## Circles -/

/-- The class with the id `id` names `parent` as its parent. -/
def Derives (prog : Source.Program) (id parent : ClassId) : Prop :=
  ∃ decl, prog.classes[id]? = some decl ∧ decl.parent = some parent

/-- Going up from the first class leads to the second. -/
abbrev Above (prog : Source.Program) : ClassId → ClassId → Prop := Relation.ReflTransGen (Derives prog)

/-- A class that is its own ancestor. -/
def OnCircle (prog : Source.Program) (id : ClassId) : Prop := Relation.TransGen (Derives prog) id id

/-- Ancestors have a shorter lineage. -/
theorem Lineage.of_derives {ancestor : ClassId} (h : Lineage prog (some id) lineage)
    (hdv : Relation.TransGen (Derives prog) id ancestor) :
    ∃ above, Lineage prog (some ancestor) above ∧ above.length < lineage.length := by
  have hs : ∀ {id parent lineage}, Lineage prog (some id) lineage → Derives prog id parent →
      ∃ above, Lineage prog (some parent) above ∧ above.length < lineage.length := by
    rintro id parent lineage (_ | ⟨hd, ha⟩) ⟨decl, hfn, hdr⟩
    cases hd.symm.trans hfn
    exact ⟨_, hdr ▸ ha, Nat.lt_succ_self _⟩
  induction hdv with
  | single hf => exact hs h hf
  | tail _ hl ih =>
    obtain ⟨mid, hm, hlt⟩ := ih
    obtain ⟨above, ha, hlt'⟩ := hs hm hl
    exact ⟨above, ha, hlt'.trans hlt⟩

theorem OnCircle.membersOf?_eq_none (h : OnCircle prog id) : membersOf? prog (some id) = none := by
  rw [Option.eq_none_iff_forall_ne_some]
  intro members hm
  obtain ⟨lineage, hl, -, -⟩ := membersOf?_eq_some_iff.mp hm
  obtain ⟨above, ha, hlt⟩ := hl.of_derives h
  rw [ha.unique hl] at hlt
  exact Nat.lt_irrefl _ hlt

/-- The parent of a class on a circle is on it. -/
theorem OnCircle.of_derives (h : OnCircle prog id) (hp : Derives prog id parent) : OnCircle prog parent := by
  obtain ⟨next, ⟨decl, hd, hn⟩, hb⟩ := Relation.TransGen.head'_iff.mp h
  obtain ⟨found, hf, hs⟩ := hp
  cases hd.symm.trans hf
  cases hn.symm.trans hs
  exact Relation.TransGen.tail' hb ⟨decl, hd, hn⟩

/-! ## Classes merged so far -/

/-- The classes that have been merged or left out. -/
def ClassState.seen (state : ClassState) : List ClassId := state.merged.map (·.1)

/-- The reports about a class's own members, if there is such a class. -/
noncomputable def duplicatesAt (prog : Source.Program) (id : ClassId) : Diagnostics := (prog.classes[id]?.map (duplicatesOf prog)).getD []

/-- The report about a circle with this class on it. -/
def circleAt? (prog : Source.Program) (id : ClassId) : Option Diagnostic :=
  prog.classes[id]?.map fun decl => cycleReport decl.symbol

/-- The classes merged so far, while those on the `path` wait for their ancestors. Each circle among them was reported once, for
its class in `heads`. -/
structure ClassState.Tracks (prog : Source.Program) (path heads : List ClassId) (state : ClassState) : Prop where
  known : ∀ entry ∈ state.merged, entry.2 = membersOf? prog (some entry.1)
  nodup : state.seen.Nodup
  lt : ∀ id ∈ state.seen, id < prog.classes.length
  closed : ∀ id ∈ state.seen, ∀ parent, Derives prog id parent → parent ∈ state.seen ∨ parent ∈ path
  heads_of : ∀ head ∈ heads, OnCircle prog head ∧ (head ∈ state.seen ∨ head ∈ path)
  apart : heads.Pairwise fun head other => ¬ Above prog head other
  covered : ∀ id ∈ state.seen, OnCircle prog id → ∃ head ∈ heads, Above prog id head
  reports : state.diagnostics.Perm (heads.filterMap (circleAt? prog) ++ state.seen.flatMap (duplicatesAt prog))

namespace ClassState.Tracks

variable {path heads : List ClassId} {state : ClassState}

section

variable (h : state.Tracks prog [] heads)
include h

theorem mono (path : List ClassId) : state.Tracks prog path heads :=
  ⟨h.known, h.nodup, h.lt, fun id hid parent hp => .inl ((h.closed id hid parent hp).resolve_right not_mem_nil),
    fun head hh => ⟨(h.heads_of head hh).1, .inl ((h.heads_of head hh).2.resolve_right not_mem_nil)⟩, h.apart,
    h.covered, h.reports⟩

/-- With no class waiting, all ancestors of a class that was seen were seen. -/
theorem mem_of_above {ancestor : ClassId} (hid : id ∈ state.seen) (ha : Above prog id ancestor) : ancestor ∈ state.seen := by
  induction ha with
  | refl => exact hid
  | tail _ hp ih => exact (h.closed _ ih _ hp).resolve_right not_mem_nil

/-- A circle is reported when one comes back to a class that waits. -/
theorem report (hd : prog.classes[id]? = some decl) (hnew : id ∉ state.seen) (hc : OnCircle prog id) (hp : id ∈ path) :
    Tracks prog path (heads ++ [id]) { state with diagnostics := state.diagnostics ++ [cycleReport decl.symbol] } := by
  have hm := h.mono path
  refine ⟨hm.known, hm.nodup, hm.lt, hm.closed, ?_, ?_, fun other ho hc => ?_, ?_⟩
  · exact forall_mem_append.mpr ⟨hm.heads_of, forall_mem_singleton.mpr ⟨hc, .inr hp⟩⟩
  · refine pairwise_append.mpr ⟨h.apart, pairwise_singleton _ _, fun head hh other ho => ?_⟩
    rw [mem_singleton.mp ho]
    exact fun ha => hnew (h.mem_of_above ((h.heads_of head hh).2.resolve_right not_mem_nil) ha)
  · obtain ⟨head, hh, ha⟩ := h.covered other ho hc
    exact ⟨head, mem_append_left _ hh, ha⟩
  · have hone : [id].filterMap (circleAt? prog) = [cycleReport decl.symbol] := by simp [circleAt?, hd]
    refine (h.reports.append_right _).trans ?_
    rw [filterMap_append, hone, append_assoc, append_assoc]
    exact perm_append_comm.append_left _

end

/-- A class is merged or left out once its ancestors are, as far as they do not wait for it. -/
theorem add (h : state.Tracks prog (id :: path) heads) (hd : prog.classes[id]? = some decl) (hnew : id ∉ state.seen)
    (hpr : ∀ parent, Derives prog id parent → parent ∈ state.seen ∨ parent ∈ id :: path)
    (hc : OnCircle prog id → ∃ head ∈ heads, Above prog id head) :
    Tracks prog path heads ⟨(id, membersOf? prog (some id)) :: state.merged, state.diagnostics ++ duplicatesOf prog decl⟩ := by
  have hm : ∀ other, other ∈ state.seen ∨ other ∈ id :: path → other ∈ id :: state.seen ∨ other ∈ path := by
    rintro other (hs | hw)
    · exact .inl (mem_cons_of_mem _ hs)
    · rcases mem_cons.mp hw with rfl | hw
      · exact .inl mem_cons_self
      · exact .inr hw
  refine ⟨forall_mem_cons.mpr ⟨rfl, h.known⟩, nodup_cons.mpr ⟨hnew, h.nodup⟩, forall_mem_cons.mpr ⟨?_, h.lt⟩,
    forall_mem_cons.mpr ⟨fun parent hp => hm _ (hpr parent hp), fun other ho parent hp =>
      hm _ (h.closed other ho parent hp)⟩,
    fun head hh => ⟨(h.heads_of head hh).1, hm _ (h.heads_of head hh).2⟩, h.apart,
    forall_mem_cons.mpr ⟨hc, h.covered⟩, ?_⟩
  · exact (List.getElem?_eq_some_iff.mp hd).1
  · have hone : duplicatesAt prog id = duplicatesOf prog decl := by simp [duplicatesAt, hd]
    refine (h.reports.append_right _).trans ?_
    rw [append_assoc, ← hone]
    exact perm_append_comm.append_left _

end ClassState.Tracks

/-! ## Merging -/

/-- The parents and methods that classes name are classes and functions of the program. -/
def ClassesInRange (prog : Source.Program) : Prop :=
  ∀ decl ∈ prog.classes, (∀ parent, decl.parent = some parent → parent < prog.classes.length) ∧
    ∀ id ∈ decl.methods, id < prog.functions.length

/-- A result with the property `P`, or a fault that comes of an id out of range. -/
def Attains (prog : Source.Program) {α : Type} (P : α → Prop) : Except Fault α → Prop
  | .ok res => P res
  | .error _ => ¬ ClassesInRange prog

theorem Attains.bind {α β : Type} {P : α → Prop} {Q : β → Prop} {first : Except Fault α} {next : α → Except Fault β}
    (hf : Attains prog P first) (hn : ∀ res, P res → Attains prog Q (next res)) :
    Attains prog Q (first >>= next) := by
  cases first with
  | ok res => exact hn res hf
  | error fault => exact hf

/-- What each step of a loop carries on to the next. -/
theorem Attains.foldlM {α β : Type} {step : β → α → Except Fault β} (P : List α → β → Prop) (items done : List α) {state : β}
    (hst : ∀ done state, ∀ item ∈ items, P done state → Attains prog (P (done ++ [item])) (step state item))
    (hs : P done state) : Attains prog (P (done ++ items)) (items.foldlM step state) := by
  induction items generalizing done state with
  | nil => exact (append_nil done).symm ▸ hs
  | cons item rest ih =>
    refine (hst done state item mem_cons_self hs).bind fun next hn => ?_
    simpa using ih (done ++ [item]) (fun done state other ho => hst done state other (mem_cons_of_mem _ ho)) hn

/-- The symbols of methods are looked up one by one. -/
theorem mapM_symbols (ids : List FunctionId) (hids : ClassesInRange prog → ∀ id ∈ ids, id < prog.functions.length) :
    Attains prog (· = ids.filterMap fun id => prog.functions[id]?.map fun fn => (fn.symbol, id))
      (ids.mapM fun id => (return ((← prog.function id).symbol, id) : Except Fault (Symbol × FunctionId))) := by
  induction ids with
  | nil => rfl
  | cons id rest ih =>
    rw [mapM_cons]
    cases hid : prog.functions[id]? with
    | none =>
      simp only [Source.Program.function, Table.fetch, hid]
      exact fun hr => absurd (hids hr id mem_cons_self) (Nat.not_lt.mpr (List.getElem?_eq_none_iff.mp hid))
    | some fn =>
      simp only [Source.Program.function, Table.fetch, hid]
      refine (ih fun hr other ho => hids hr other (mem_cons_of_mem _ ho)).bind ?_
      rintro _ rfl
      simp [hid, Attains, pure, Except.pure]

/-- A class adds its own members to what it inherits. -/
theorem mergeBelow_attains (hd : prog.classes[id]? = some decl) (state : ClassState) :
    Attains prog (· = (membersOf? prog (some id), { state with diagnostics := state.diagnostics ++ duplicatesOf prog decl }))
      (mergeBelow prog decl (membersOf? prog decl.parent) state) := by
  unfold mergeBelow duplicatesOf
  cases hi : membersOf? prog decl.parent with
  | none =>
    have hn : membersOf? prog (some id) = none := by
      rw [Option.eq_none_iff_forall_ne_some]
      intro members hm
      obtain ⟨inherited, hs, -⟩ := (membersOf?_eq_some_iff_inherits hd).mp hm
      cases hi.symm.trans hs
    simp [Attains, hn]
  | some inherited =>
    refine (mapM_symbols decl.methods fun hr => (hr decl (mem_of_getElem? hd)).2).bind fun methods hmt => ?_
    obtain rfl : methods = methodSymbols prog decl := hmt
    obtain ⟨he, hm⟩ := mergeOwn_eq prog inherited decl
    refine Prod.ext (Option.ext fun members => ?_) (congrArg (ClassState.mk state.merged <| state.diagnostics ++ ·) he)
    rw [membersOf?_eq_some_iff_inherits hd, he, hi]
    by_cases hc : duplicates prog inherited decl = []
    · simp [hc, hm hc]
    · simp [hc]

/-- What a visit of a class leaves behind, and yields. -/
structure Visited (prog : Source.Program) (path : List ClassId) (id : ClassId) (before : ClassState)
    (res : Option Members × ClassState) : Prop where
  members_eq : res.1 = membersOf? prog (some id)
  tracks : ∃ heads, res.2.Tracks prog path heads ∧ (OnCircle prog id → ∃ head ∈ heads, Above prog id head)
  seen : id ∈ res.2.seen ∨ id ∈ path
  grows : ∀ other ∈ before.seen, other ∈ res.2.seen
  spares : ∀ other ∈ res.2.seen, other ∈ before.seen ∨ other ∉ path

variable {path heads : List ClassId} {state : ClassState}

/-- A class is merged once its ancestors are, whether it has any or not. -/
theorem mergeBelow_visits {inherited : Option Members} {before : ClassState} (hd : prog.classes[id]? = some decl)
    (hnew : id ∉ before.seen) (hpt : id ∉ path) (hi : inherited = membersOf? prog decl.parent)
    (ht : state.Tracks prog (id :: path) heads) (hc : OnCircle prog id → ∃ head ∈ heads, Above prog id head)
    (hp : ∀ parent, Derives prog id parent → parent ∈ state.seen ∨ parent ∈ id :: path)
    (hg : ∀ other ∈ before.seen, other ∈ state.seen)
    (hs : ∀ other ∈ state.seen, other ∈ before.seen ∨ other ∉ id :: path) :
    Attains prog (Visited prog path id before) (mergeBelow prog decl inherited state >>= fun res =>
      pure (res.1, { res.2 with merged := (id, res.1) :: res.2.merged })) := by
  subst hi
  refine (mergeBelow_attains hd state).bind ?_
  rintro _ rfl
  have hst : id ∉ state.seen := fun hsn => (hs id hsn).elim hnew (absurd mem_cons_self)
  refine ⟨rfl, ⟨heads, ht.add hd hst hp hc, hc⟩, .inl mem_cons_self, fun other ho =>
    mem_cons_of_mem _ (hg other ho), forall_mem_cons.mpr ⟨.inr hpt, fun other ho => ?_⟩⟩
  exact (hs other ho).imp_right fun ho => ho ∘ mem_cons_of_mem _

/-- Merging a class merges its ancestors first. The fuel is enough: the classes on the path are distinct. -/
theorem mergeClass_visits (fuel : Nat) (ht : state.Tracks prog [] heads)
    (hfl : prog.classes.length < path.length + fuel) (hn : path.Nodup)
    (hlt : ∀ other ∈ path, other < prog.classes.length) (hpt : ∀ other ∈ path, Relation.TransGen (Derives prog) other id)
    (hid : ClassesInRange prog → id < prog.classes.length) :
    Attains prog (Visited prog path id state) (mergeClass prog fuel path id state) := by
  induction fuel generalizing path id with
  | zero => exact absurd (length_le_of_nodup_of_lt hn hlt) (Nat.not_le.mpr hfl)
  | succ fuel ih =>
    unfold mergeClass
    cases hl : state.merged.lookup id with
    | some members =>
      obtain ⟨before, rest, hm, -⟩ := lookup_eq_some_iff.mp hl
      have hmem : (id, members) ∈ state.merged := by simp [hm]
      have hs : id ∈ state.seen := mem_map_of_mem hmem
      exact ⟨ht.known _ hmem, ⟨heads, ht.mono path, ht.covered id hs⟩, .inl hs, fun _ h => h, fun _ h => .inl h⟩
    | none =>
      have hnew : id ∉ state.seen := by
        rw [lookup_eq_none_iff] at hl
        simpa [ClassState.seen] using fun members hmem => hl (id, members) hmem
      cases hd : prog.classes[id]? with
      | none =>
        simp only [Source.Program.classDecl, Table.fetch, hd]
        exact fun hrn => absurd (hid hrn) (Nat.not_lt.mpr (List.getElem?_eq_none_iff.mp hd))
      | some decl =>
        simp only [Source.Program.classDecl, Table.fetch, hd]
        change Attains prog _ (if id ∈ path then _ else _)
        by_cases hmem : id ∈ path
        · have hc : OnCircle prog id := hpt id hmem
          rw [if_pos hmem]
          exact ⟨hc.membersOf?_eq_none.symm, ⟨heads ++ [id], ht.report hd hnew hc hmem,
            fun _ => ⟨id, by simp, .refl⟩⟩, .inr hmem, fun _ h => h, fun _ h => .inl h⟩
        · rw [if_neg hmem]
          split
          · rename_i parent hp
            have hdr : Derives prog id parent := ⟨decl, hd, hp⟩
            have hon : ∀ other, Derives prog id other → other = parent := by
              rintro other ⟨found, hf, ho⟩
              cases hd.symm.trans hf
              exact Option.some.inj (ho.symm.trans hp)
            refine (ih (by simp; omega) (nodup_cons.mpr ⟨hmem, hn⟩) (forall_mem_cons.mpr ⟨(List.getElem?_eq_some_iff.mp hd).1, hlt⟩)
              (forall_mem_cons.mpr ⟨.single hdr, fun other ho => (hpt other ho).tail hdr⟩)
              fun hrn => (hrn decl (mem_of_getElem? hd)).1 parent hp).bind fun res hr => ?_
            obtain ⟨heads, hmd, hcv⟩ := hr.tracks
            refine mergeBelow_visits hd hnew hmem ?_ hmd (fun hc => ?_) ?_ hr.grows hr.spares
            · rw [hr.members_eq, hp]
            · obtain ⟨head, hh, ha⟩ := hcv (hc.of_derives hdr)
              exact ⟨head, hh, .head hdr ha⟩
            · exact fun other ho => hon other ho ▸ hr.seen
          · rename_i hp
            have hno : ∀ other, ¬ Derives prog id other := by
              rintro other ⟨found, hf, ho⟩
              cases hd.symm.trans hf
              cases hp.symm.trans ho
            refine mergeBelow_visits hd hnew hmem ?_ (ht.mono _) (fun hc => ?_)
              (fun other ho => absurd ho (hno other)) (fun _ h => h) (fun _ h => .inl h)
            · rw [hp, membersOf?_eq_some_iff.mpr ⟨[], .nil, trivial, rfl⟩]
              rfl
            · obtain ⟨next, hnx, -⟩ := Relation.TransGen.head'_iff.mp hc
              exact absurd hnx (hno next)

end

/-! ## All classes -/

section

variable (prog : Source.Program) (diagnostics : Diagnostics)

/-- The state after what was reported before. -/
def ClassState.after (state : ClassState) : ClassState := { state with diagnostics := diagnostics ++ state.diagnostics }

theorem mergeBelow_after (decl : ClassDecl) (inherited : Option Members) (state : ClassState) :
    mergeBelow prog decl inherited (state.after diagnostics) =
      (mergeBelow prog decl inherited state).map fun res => (res.1, res.2.after diagnostics) := by
  cases inherited with
  | none => rfl
  | some inherited =>
    unfold mergeBelow
    generalize (decl.methods.mapM fun id => (return ((← prog.function id).symbol, id) : Except Fault _)) = found
    cases found with
    | error fault => rfl
    | ok methods => simp [bind, Except.bind, pure, Except.pure, Except.map, ClassState.after]

theorem mergeClass_after (fuel : Nat) (path : List ClassId) (id : ClassId) (state : ClassState) :
    mergeClass prog fuel path id (state.after diagnostics) =
      (mergeClass prog fuel path id state).map fun res => (res.1, res.2.after diagnostics) := by
  induction fuel generalizing path id state with
  | zero => rfl
  | succ fuel ih =>
    unfold mergeClass
    rw [show (state.after diagnostics).merged.lookup id = state.merged.lookup id from rfl]
    cases state.merged.lookup id with
    | some members => rfl
    | none =>
      cases prog.classDecl id with
      | error fault => rfl
      | ok decl =>
        have hb : ∀ (inherited : Option Members) (mid : ClassState),
            (mergeBelow prog decl inherited (mid.after diagnostics) >>= fun res =>
              pure (res.1, { res.2 with merged := (id, res.1) :: res.2.merged })) =
            (mergeBelow prog decl inherited mid >>= fun res =>
              pure (res.1, { res.2 with merged := (id, res.1) :: res.2.merged })).map fun res => (res.1, res.2.after diagnostics) := by
          intro inherited mid
          rw [mergeBelow_after]
          cases mergeBelow prog decl inherited mid <;> rfl
        change (if id ∈ path then _ else _) = Except.map _ (if id ∈ path then _ else _)
        split
        · simp [ClassState.after, Except.map, pure, Except.pure]
        · cases decl.parent with
          | none => exact hb _ state
          | some parent =>
            dsimp only
            rw [ih]
            cases mergeClass prog fuel (id :: path) parent state with
            | error fault => rfl
            | ok res => exact hb _ res.2

/-- What was reported before stands in front of what merging reports, and makes no other difference. -/
theorem lowerClasses_eq_map : lowerClasses prog diagnostics = (lowerClasses prog []).map fun res => (res.1, diagnostics ++ res.2) := by
  have hl : ∀ (entries : List (ClassId × ClassDecl)) (classes : List ClassLayout) (state : ClassState),
      entries.foldlM (lowerClass prog) (classes, state.after diagnostics) =
        (entries.foldlM (lowerClass prog) (classes, state)).map fun res => (res.1, res.2.after diagnostics) := by
    intro entries
    induction entries with
    | nil => exact fun _ _ => rfl
    | cons entry rest ih =>
      intro classes state
      rw [foldlM_cons, foldlM_cons, lowerClass, lowerClass, mergeClass_after]
      rcases mergeClass prog (prog.classes.length + 1) [] entry.1 state with _ | ⟨_ | members, later⟩
      · rfl
      · exact ih _ later
      · exact ih _ later
  have hs := hl prog.classes.entries [] ⟨[], []⟩
  rw [ClassState.after, append_nil] at hs
  rw [lowerClasses, lowerClasses, hs]
  cases prog.classes.entries.foldlM (lowerClass prog) ([], ⟨[], []⟩) <;> rfl

end

/-- One class of each circle. -/
structure HeadsOfCircles (prog : Source.Program) (heads : List ClassId) : Prop where
  onCircle : ∀ head ∈ heads, OnCircle prog head
  apart : heads.Pairwise fun head other => ¬ Above prog head other
  complete : ∀ id, OnCircle prog id → ∃ head ∈ heads, Above prog id head

/-- What comes of the classes of a program, and what is reported about them. -/
structure ClassesLowered (prog : Source.Program) (classes : List ClassLayout) (reports : Diagnostics) : Prop where
  classes_eq : classes = prog.classes.entries.filterMap (layoutOf? prog)
  reports : ∃ heads, HeadsOfCircles prog heads ∧ reports.Perm (heads.filterMap (circleAt? prog) ++
    prog.classes.entries.flatMap fun entry => duplicatesOf prog entry.2)

/-- The loop over the classes, after those that are `done`. -/
structure ClassesUpTo (prog : Source.Program) (done : List (ClassId × ClassDecl)) (acc : List ClassLayout × ClassState) :
    Prop where
  classes_eq : acc.1 = done.filterMap (layoutOf? prog)
  seen : ∀ entry ∈ done, entry.1 ∈ acc.2.seen
  tracks : ∃ heads, acc.2.Tracks prog [] heads

variable {prog : Source.Program}

theorem lowerClass_attains {entry : ClassId × ClassDecl} {done : List (ClassId × ClassDecl)}
    {acc : List ClassLayout × ClassState} (he : prog.classes[entry.1]? = some entry.2)
    (hacc : ClassesUpTo prog done acc) :
    Attains prog (ClassesUpTo prog (done ++ [entry])) (lowerClass prog acc entry) := by
  obtain ⟨heads, ht⟩ := hacc.tracks
  have hvs := mergeClass_visits (prog.classes.length + 1) ht (by simp) nodup_nil (by simp) (by simp)
    fun _ => (List.getElem?_eq_some_iff.mp he).1
  refine hvs.bind fun res hv => ?_
  obtain ⟨heads, hl, -⟩ := hv.tracks
  have hall : ∀ other ∈ done ++ [entry], other.1 ∈ res.2.seen := forall_mem_append.mpr ⟨fun other ho => hv.grows _ (hacc.seen other ho),
      forall_mem_singleton.mpr (hv.seen.resolve_right not_mem_nil)⟩
  dsimp only
  rw [hv.members_eq]
  cases hm : membersOf? prog (some entry.1) with
  | none => exact ⟨by simp [hacc.classes_eq, layoutOf?, hm], hall, heads, hl⟩
  | some members => exact ⟨by simp [hacc.classes_eq, layoutOf?, hm], hall, heads, hl⟩

theorem lowerClasses_attains (prog : Source.Program) :
    Attains prog (fun res => ClassesLowered prog res.1 res.2) (lowerClasses prog []) := by
  have hs : ClassState.Tracks prog [] [] ⟨[], []⟩ := by constructor <;> simp [ClassState.seen]
  refine (Attains.foldlM (ClassesUpTo prog) prog.classes.entries []
    (fun done acc entry he hacc => lowerClass_attains (Table.mem_entries.mp he) hacc) ⟨rfl, by simp, [], hs⟩).bind
    fun acc hacc => ?_
  obtain ⟨heads, ht⟩ := hacc.tracks
  have hall : ∀ id, id ∈ acc.2.seen ↔ id < prog.classes.length := fun id =>
    ⟨ht.lt id, fun hlt => hacc.seen (id, prog.classes[id]) (Table.mem_entries.mpr (getElem?_eq_getElem hlt))⟩
  refine ⟨hacc.classes_eq, heads, ⟨fun head hh => (ht.heads_of head hh).1, ht.apart, fun id hc => ?_⟩, ?_⟩
  · obtain ⟨next, ⟨decl, hd, -⟩, -⟩ := Relation.TransGen.head'_iff.mp hc
    exact ht.covered id ((hall id).mpr (List.getElem?_eq_some_iff.mp hd).1) hc
  · refine ht.reports.trans (List.Perm.append_left _ ?_)
    have hp : acc.2.seen.Perm (prog.classes.entries.map (·.1)) := by
      rw [Table.map_fst_entries, Table.ids, perm_ext_iff_of_nodup ht.nodup nodup_range]
      exact fun id => (hall id).trans mem_range.symm
    refine (hp.flatMap_right _).trans ?_
    rw [flatMap_map, flatMap_congr fun entry he => ?_]
    rw [duplicatesAt, Table.mem_entries.mp he]
    rfl

/-- What came out of lowering the classes, and what was reported. -/
theorem classesLowered_of_eq_ok {diagnostics after : Diagnostics} {classes : List ClassLayout}
    (h : lowerClasses prog diagnostics = .ok (classes, after)) :
    ∃ reports, after = diagnostics ++ reports ∧ ClassesLowered prog classes reports := by
  rw [lowerClasses_eq_map] at h
  obtain ⟨⟨found, reports⟩, hrun, heq⟩ := exists_of_map_eq_ok h
  cases heq
  have ha := lowerClasses_attains prog
  rw [hrun] at ha
  exact ⟨reports, rfl, ha⟩

theorem ClassesLowered.report_cases {classes : List ClassLayout} {reports : Diagnostics}
    (h : ClassesLowered prog classes reports) {report : Diagnostic} (hmem : report ∈ reports) :
    (∃ sym, report = cycleReport sym) ∨
      ∃ (collision : Collision) (className : String) (member : Symbol), report = collision.report className member := by
  obtain ⟨heads, -, hp⟩ := h.reports
  rcases mem_append.mp (hp.mem_iff.mp hmem) with hmem | hmem
  · obtain ⟨head, -, hh⟩ := mem_filterMap.mp hmem
    obtain ⟨decl, -, rfl⟩ := Option.map_eq_some_iff.mp hh
    exact .inl ⟨decl.symbol, rfl⟩
  · obtain ⟨⟨id, decl⟩, -, hmem⟩ := mem_flatMap.mp hmem
    unfold duplicatesOf at hmem
    split at hmem
    · obtain ⟨collision, member, rfl⟩ := (mem_append.mp hmem).elim (exists_report_of_mem_clashes _ _) (exists_report_of_mem_clashes _ _)
      exact .inr ⟨collision, _, member, rfl⟩
    · exact absurd hmem not_mem_nil

/-- The classes that are laid out have what inheritance prescribes: all that the parent has in its place, with methods replaced by
the class's own of their names, and then the rest of what the class declares. -/
theorem lowerClasses_inherits (program : Source.Program) (diagnostics after : Diagnostics) (classes : List ClassLayout)
    (h : lowerClasses program diagnostics = .ok (classes, after)) :
    classes = program.classes.entries.filterMap (layoutOf? program) ∧
      ∀ id decl members, program.classes[id]? = some decl → membersOf? program (some id) = some members →
        ∃ above inherited, Lineage program decl.parent above ∧ membersOf? program decl.parent = some inherited ∧
          Inherits program decl above inherited members := by
  obtain ⟨reports, -, hlowered⟩ := classesLowered_of_eq_ok h
  exact ⟨hlowered.classes_eq, fun _ _ _ => inherits_of_membersOf?⟩

/-- A class and one below it that replaces a method, a circle of two with one class below it, and a class with a field that has the
name of an inherited method, with one class below it. -/
def menagerie : Source.Program where
  files := []
  types := ⟨[.dynamic]⟩
  functions := [method "name", method "area", method "area"]
  classes := [
    ⟨⟨"Shape", .unknown⟩, 0, none, [field "x"], [0, 1]⟩, ⟨⟨"Disc", .unknown⟩, 0, some 0, [field "radius"], [2]⟩,
    ⟨⟨"Yolk", .unknown⟩, 0, some 3, [], []⟩, ⟨⟨"Egg", .unknown⟩, 0, some 4, [], []⟩, ⟨⟨"Hen", .unknown⟩, 0, some 3, [], []⟩,
    ⟨⟨"Shard", .unknown⟩, 0, some 6, [field "x"], []⟩, ⟨⟨"Pot", .unknown⟩, 0, some 0, [field "name"], []⟩]
  entry := none
where
  method (name : String) : Source.Function := ⟨⟨name, .unknown⟩, 0, .internal, true, .declared⟩
  field (name : String) : Variable := ⟨0, ⟨name, .unknown⟩, 0⟩

/-- In the menagerie two classes are laid out. -/
theorem lowerClasses_inherits_menagerie :
    ∃ after, lowerClasses menagerie [] = .ok ([⟨⟨"Shape", .unknown⟩, 0, [⟨"x", 0⟩], [⟨"name", 0⟩, ⟨"area", 1⟩]⟩,
        ⟨⟨"Disc", .unknown⟩, 0, [⟨"x", 0⟩, ⟨"radius", 0⟩], [⟨"name", 0⟩, ⟨"area", 2⟩]⟩], after) ∧
      ∀ id decl members, menagerie.classes[id]? = some decl → membersOf? menagerie (some id) = some members →
        ∃ above inherited, Lineage menagerie decl.parent above ∧ membersOf? menagerie decl.parent = some inherited ∧
          Inherits menagerie decl above inherited members :=
  ⟨_, rfl, (lowerClasses_inherits menagerie [] _ _ rfl).2⟩

/-- With ids in range the classes are lowered: those without a lineage, and those with a member that collides and all below them,
are left out. Each circle is reported once, and so is each member that collides, of every class whose parent is not left out: a
field with something inherited or another field; a method with an inherited field, another method, or a field of the class, unless a
method of the field's name is inherited. -/
theorem lowerClasses_leaves_out_faulty (program : Source.Program) (diagnostics : Diagnostics) (hrange : ClassesInRange program) :
    ∃ classes reports, lowerClasses program diagnostics = .ok (classes, diagnostics ++ reports) ∧
      ClassesLowered program classes reports := by
  have hattains := lowerClasses_attains program
  cases hrun : lowerClasses program [] with
  | error fault =>
    rw [hrun] at hattains
    exact absurd hrange hattains
  | ok result =>
    rw [hrun] at hattains
    exact ⟨result.1, result.2, by rw [lowerClasses_eq_map, hrun]; rfl, hattains⟩

/-- In the menagerie one circle and one member are reported. -/
theorem lowerClasses_leaves_out_faulty_menagerie : ClassesInRange menagerie ∧
    ∃ classes reports, lowerClasses menagerie [] = .ok (classes, reports) ∧
      reports.map (·.kind) = [.cyclicInheritance, .duplicateMember] ∧ ClassesLowered menagerie classes reports := by
  have hrange : ClassesInRange menagerie := by simp [ClassesInRange, menagerie]
  obtain ⟨classes, reports, hrun, hlowered⟩ := lowerClasses_leaves_out_faulty menagerie [] hrange
  have hkinds : (lowerClasses menagerie []).map (fun result => result.2.map (·.kind)) = .ok [.cyclicInheritance, .duplicateMember] := rfl
  rw [hrun] at hkinds
  exact ⟨hrange, classes, reports, hrun, Except.ok.inj hkinds, hlowered⟩

/-- A class with a method, and one below it with a field and a method that have the name of that method. -/
def heirloom : Source.Program where
  files := []
  types := ⟨[.dynamic]⟩
  functions := [menagerie.method "strike", menagerie.method "strike"]
  classes := [⟨⟨"Clock", .unknown⟩, 0, none, [], [0]⟩, ⟨⟨"Watch", .unknown⟩, 0, some 0, [menagerie.field "strike"], [1]⟩]
  entry := none

/-- The field of the watch collides with the method that it inherits, and its method collides with its field. Only the field is
reported: it is no part of the class, so that its name is free for the method. -/
theorem lowerClasses_heirloom_reports_field : ∃ clock watch, heirloom.classes = [clock, watch] ∧ watch.parent = some 0 ∧
      collisions heirloom (allMembers heirloom [clock]) watch (watch.fields.map (·.symbol.name)) =
        [Collision.inheritedMethod.report "Watch" ⟨"strike", .unknown⟩, Collision.ownField.report "Watch" ⟨"strike", .unknown⟩] ∧
      lowerClasses heirloom [] = .ok ([⟨⟨"Clock", .unknown⟩, 0, [], [⟨"strike", 0⟩]⟩],
        [Collision.inheritedMethod.report "Watch" ⟨"strike", .unknown⟩]) :=
  ⟨_, _, rfl, rfl, rfl, rfl⟩

end TagAsm.Lower
