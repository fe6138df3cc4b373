import TagAsm.Proofs.Assembling
import TagAsm.Proofs.Demands

/-!
# The effect of a piece of work

The effect of a piece of work does not depend on when it is done, nor on the arrangement of statements, as long as no statement
makes selection give up its subroutine. That is what a call of a native subroutine without the type of a function does, and then
it depends on the arrangement which statements were selected before.
-/

namespace TagAsm.Select

open Asm Abi SelectM List
open TagAsm.Flow (SubroutineId ValueId Subroutine Body Block BlockId)

/-! ## The effect of a step -/

section

variable {α β : Type} {names : Table String}

/-- Nothing was kept yet but the names of the subroutines. -/
def Selection.blank (names : Table String) : Selection := ⟨⟨names, [], [], [], []⟩, [], [], []⟩

/-- The effect of a step, as seen where nothing was kept before. -/
def SelectM.effect (names : Table String) (step : SelectM α) : Effect :=
  match step.run.run (.blank names) with
  | .ok (_, after) => ⟨after.asked, after.diagnostics⟩
  | .error _ => .none

variable {post : α → β → Prop} {kept : Selection}

theorem Alike.takes {effect : Effect} {kept' : Selection} {out : Except Refusal α × Selection}
    {outcome' : Except Refusal β × Selection} (h : Alike effect post kept kept' out outcome') :
    effect.Takes kept out.2 ∧ effect.Takes kept' outcome'.2 := by
  cases h with
  | refused refusal ht ht' | result hp ht ht' => exact ⟨ht, ht'⟩

/-- A step that is in parallel with another one has the effect of that one, whatever was kept. -/
theorem SelectM.Parallel.takes {left : SelectM α} {right : SelectM β} (h : Parallel names post left right) {after : Selection}
    {out : Except Refusal β} (hk : kept.symbols.subroutines = names) (hrun : right.run.run kept = .ok (out, after)) :
    (left.effect names).Takes kept after := by
  have hb := h (.blank names) kept rfl hk
  rw [hrun] at hb
  unfold effect
  cases hl : left.run.run (.blank names) with
  | error fault =>
    rw [hl] at hb
    cases hb
  | ok found =>
    rw [hl] at hb
    cases hb with
    | result hal =>
      obtain ⟨effect, hal⟩ := hal
      obtain ⟨hf, ha⟩ := hal.takes
      obtain ⟨added, had, hp⟩ := hf.errors
      obtain ⟨more, hm, hp'⟩ := ha.errors
      refine ⟨ha.subroutines_eq, fun task => ?_, more, hm, ?_⟩
      · rw [ha.asked, hf.asked]
        exact or_congr_right (or_iff_right not_mem_nil).symm
      · dsimp only at had ⊢
        rw [had]
        exact hp'.trans hp.symm

end

/-! ## Steps in a row -/

/-- The effects of all these, in a row. -/
def Effect.all {α : Type} (effect : α → Effect) (elems : List α) : Effect :=
  ⟨elems.flatMap fun a => (effect a).tasks, elems.flatMap fun a => (effect a).errors⟩

theorem Effect.append_none (effect : Effect) : effect ++ none = effect := by
  show mk (effect.tasks ++ []) (effect.errors ++ []) = effect
  rw [append_nil, append_nil]

theorem Effect.all_append {α : Type} (effect : α → Effect) (first rest : List α) :
    all effect (first ++ rest) = all effect first ++ all effect rest := by
  unfold all
  rw [flatMap_append, flatMap_append]
  rfl

theorem Effect.all_zipIdx {α : Type} (effect : α → Effect) (elems : List α) (start : Nat) :
    all (fun entry => effect entry.1) (elems.zipIdx start) = all effect elems := by
  have hall : ∀ {β : Type} (f : α → List β), (elems.zipIdx start).flatMap (fun entry => f entry.1) = elems.flatMap f := by
    intro β f
    rw [← flatMap_map, zipIdx_map_fst]
  rw [all, all, hall fun a => (effect a).tasks, hall fun a => (effect a).errors]

/-- The order does not matter. -/
theorem Effect.Takes.perm {α : Type} {effect : α → Effect} {elems others : List α} {before after : Selection}
    (h : (all effect elems).Takes before after) (hp : elems.Perm others) :
    (all effect others).Takes before after := by
  obtain ⟨added, ha, ha'⟩ := h.errors
  refine ⟨h.subroutines_eq, fun task => ?_, added, ha, ha'.trans (hp.flatMap_right _)⟩
  rw [h.asked]
  exact or_congr_right (hp.flatMap_right _).mem_iff

/-- Where the subroutines have these names, the step has a result as described, unless it faults, and the effect is this. -/
def SelectM.Does {α : Type} (names : Table String) (step : SelectM α) (effect : Effect) (post : α → Prop) : Prop :=
  ∀ kept out after, kept.symbols.subroutines = names → step.run.run kept = .ok (out, after) →
    (∃ res, out = .ok res ∧ post res) ∧ effect.Takes kept after

namespace SelectM.Does

variable {α β : Type} {names : Table String} {effect rest : Effect} {post : α → Prop} {post' : β → Prop}

theorem pure {res : α} (h : post res) : Does names (pure res) .none post := by
  intro kept out after _ hrun
  cases hrun
  exact ⟨⟨res, rfl, h⟩, .refl kept⟩

variable {first : SelectM α}

theorem bind {next : α → SelectM β} (hf : Does names first effect post) (hn : ∀ res, post res → Does names (next res) rest post') :
    Does names (first >>= next) (effect ++ rest) post' := by
  intro kept out after hk hrun
  obtain ⟨⟨found, later⟩, hrf, hr⟩ := of_bind_eq_ok hrun
  obtain ⟨⟨res, rfl, hp⟩, ht⟩ := hf kept found later hk hrf
  obtain ⟨hrs, ht'⟩ := hn res hp later out after (ht.subroutines_eq.trans hk) hr
  exact ⟨hrs, ht.trans ht'⟩

/-- A step without effect, and then one with this effect. -/
theorem next {next : α → SelectM β} (hf : Does names first .none post)
    (hn : ∀ res, post res → Does names (next res) effect post') : Does names (first >>= next) effect post' :=
  bind hf hn

/-- A step with this effect, and then one without. -/
theorem bind_none {next : α → SelectM β} (hf : Does names first effect post)
    (hn : ∀ res, post res → Does names (next res) .none post') : Does names (first >>= next) effect post' := by
  have hb := bind hf hn
  rwa [Effect.append_none] at hb

theorem collect {γ : Type} {step : γ → SelectM (List α)} (effect : γ → Effect) (elems : List γ)
    (hs : ∀ a ∈ elems, Does names (step a) (effect a) (fun _ => True)) :
    Does names (collect step elems) (.all effect elems) (fun _ => True) := by
  induction elems with
  | nil => exact pure trivial
  | cons a others ih =>
    obtain ⟨hf, ho⟩ := forall_mem_cons.mp hs
    exact bind hf fun _ _ => bind_none (ih ho) fun _ _ => pure trivial

theorem perm {γ : Type} {step : SelectM α} {effect : γ → Effect} {elems others : List γ}
    (h : Does names step (.all effect elems) post) (hp : elems.Perm others) : Does names step (.all effect others) post :=
  fun kept out after hk hrun => ⟨(h kept out after hk hrun).1, (h kept out after hk hrun).2.perm hp⟩

/-- A step without effect that is known not to be refused. -/
theorem of_silent {cx : Context} {step : SelectM α} {selected : α → Selection → Prop}
    (hn : names.length = cx.program.subroutines.length) (hsl : Silent step)
    (hs : ∀ kept, Selects cx kept step selected (.given True fun _ => False))
    (hp : ∀ res kept, selected res kept → post res) : Does names step .none post := by
  intro kept out after hk hrun
  refine ⟨?_, hsl kept out after hrun⟩
  cases out with
  | error refusal => exact ((hs kept).allowed (by rw [Selection.Aligned, hk, hn]) hrun).elim
  | ok res => exact ⟨res, rfl, hp res after ((hs kept _ after hrun).2.1 res rfl)⟩

end SelectM.Does

/-! ## Phases -/

section

theorem copyCode_fixed (frame : Frame) (records : List (ValueId × Slot)) : Fixed (copyCode frame records) := by
  induction records generalizing frame with
  | nil => exact .pure _
  | cons entry rest ih => exact .bind (valueArgument_fixed _ _) fun _ => .bind (ih _) fun _ => .pure _

theorem makeDefault_silent (cx : Context) (frame : Frame) (tgt : Argument) (ty : TypeId) : Silent (makeDefault cx frame tgt ty) := by
  refine .bind (.of_fixed (.lookUp _)) fun kind => ?_
  split
  · exact .bind (.of_makes (makes_stringArguments _)) fun _ => .of_makes (makes_callHelper _ _ _)
  all_goals exact .of_makes (makes_callHelper _ _ _)

theorem defaultCode_silent (cx : Context) (frame : Frame) (body : Body) (id : ValueId) : Silent (defaultCode cx frame body id) :=
  .bind (.of_fixed (valueArgument_fixed _ _)) fun _ => .bind (.of_fixed (.lookUp _)) fun _ => makeDefault_silent _ _ _ _

theorem terminatorCode_silent (rt : Routine) (term : Flow.Terminator) : Silent (terminatorCode rt term) := by
  cases term with
  | branch cond pos neg =>
    exact .bind (.of_fixed (valueArgument_fixed _ _)) fun _ => .bind (.of_makes (makes_callHelper _ _ _)) fun _ => .of_fixed (.pure _)
  | _ => exact .of_fixed (.pure _)

theorem dropCode_silent (frame : Frame) (ids : List ValueId) : Silent (dropCode frame ids) :=
  .of_fixed (.collect (fun _ => .bind (valueArgument_fixed _ _) fun _ => .pure _) ids)

theorem exitItems_silent (frame : Frame) (returnValue : ValueId) (exit : Exit) : Silent (exitItems frame returnValue exit) := by
  cases exit with
  | toCaller => exact .of_fixed (.pure _)
  | ofProcess code =>
    refine .bind (.of_makes (makes_callHelper _ _ _)) fun _ => .bind ?_ fun _ => .of_fixed (.pure _)
    cases code with
    | none => exact .of_fixed (.pure _)
    | some kind =>
      exact .bind (.of_fixed (valueArgument_fixed _ _)) fun _ => .bind (.of_makes (makes_callHelper _ _ _)) fun _ => .of_fixed (.pure _)

end

/-! ## Calls of native subroutines -/

/-- If the action calls a native subroutine, that has the type of a function. -/
def Callable (prog : Flow.Program) (act : Flow.Action) : Prop :=
  ∀ res callee arguments sub, act = .call res callee arguments → prog.subroutines[callee]? = some sub →
    sub.isForeign = true → prog.types.signature sub.ty ≠ .ok none

/-- Every native subroutine that the body calls has the type of a function. -/
def CallsFunctions (prog : Flow.Program) (body : Body) : Prop :=
  ∀ stmt ∈ bodyStatements body, Callable prog stmt.action

theorem Callable.not_notNative {cx : Context} {act : Flow.Action} (h : Callable cx.program act) (refusal : Refusal) :
    ¬NotNative cx act refusal := by
  intro hr
  cases hr with
  | intro hc hf hs => exact h _ _ _ _ rfl hc hf hs

variable {prog : Flow.Program} {others : Table Subroutine}

theorem callable_withSubroutines (ha : AllAkin prog.subroutines others) {act : Flow.Action} :
    Callable (withSubs prog others) act ↔ Callable prog act := by
  constructor
  · intro h res callee args sub hc hcl hf
    obtain ⟨other, ho, hs⟩ := getElem?_of_forall₂ ha hcl
    rw [← hs.ty_eq]
    exact h res callee args other hc ho (hs.isForeign_eq.trans hf)
  · intro h res callee args other hc hcl hf
    obtain ⟨sub, hsb, hs⟩ := getElem?_of_forall₂ ha.flip hcl
    rw [hs.ty_eq]
    exact h res callee args sub hc hsb (hs.isForeign_eq.symm.trans hf)

theorem callsFunctions_withSubroutines (ha : AllAkin prog.subroutines others) {body body' : Body} (hr : Rearranged body body') :
    CallsFunctions (withSubs prog others) body' ↔ CallsFunctions prog body := by
  constructor
  · intro h stmt hs
    exact (callable_withSubroutines ha).mp (h stmt (hr.statements.mem_iff.mpr hs))
  · intro h stmt hs
    exact (callable_withSubroutines ha).mpr (h stmt (hr.statements.mem_iff.mp hs))

section

variable {cx : Context} (rt : Routine)

theorem callCode_refused {callee : SubroutineId} {sub : Subroutine}
    (hc : cx.program.subroutines[callee]? = some sub) (hf : sub.isForeign = true)
    (hs : cx.program.types.signature sub.ty = .ok none) (res : ValueId) (args : List ValueId)
    (kept : Selection) :
    (callCode cx rt res callee args).run.run kept = .ok (.error (.notCallable callee), kept) := by
  have hfn : require cx.program.subroutines[callee]? (.missingSubroutine callee) = pure sub := by
    rw [hc]
    rfl
  unfold callCode
  rw [hfn, pure_bind, if_pos hf]
  unfold foreignCallCode
  rw [hs]
  rfl

/-- A statement that has code does not call a native subroutine without the type of a function. -/
theorem statementCode_callable (num : Nat) (stmt : Flow.Statement) :
    Yields (statementCode cx rt num stmt) (fun _ => Callable cx.program stmt.action) := by
  refine .next fun _ => .bind ?_ fun _ hcl => .pure hcl
  intro kept code after hrun res callee args sub hc hca hf hs
  have hr : (actionCodeOrError cx rt stmt).run.run kept = .ok (.error (.notCallable callee), kept) := by
    have hcd := callCode_refused rt hca hf hs res args kept
    obtain ⟨act, loc⟩ := stmt
    subst hc
    show ((callCode cx rt res callee args).run.run kept >>= _) = _
    rw [hcd]
    rfl
  rw [hr] at hrun
  cases hrun

theorem blocksCode_callable (start : Nat) (entries : List (BlockId × Block)) : Yields (blocksCode cx rt start entries)
      (fun _ => ∀ stmt ∈ entries.flatMap fun entry => entry.2.statements, Callable cx.program stmt.action) := by
  have hc : ∀ stmts : List (Flow.Statement × Nat), Yields (collect (fun entry => statementCode cx rt entry.2 entry.1) stmts)
        (fun _ => ∀ entry ∈ stmts, Callable cx.program entry.1.action) := by
    intro stmts
    induction stmts with
    | nil => exact .pure (forall_mem_nil _)
    | cons entry rest ih =>
      exact .bind (statementCode_callable rt entry.2 entry.1) fun _ hf => .bind ih fun _ hr =>
        .pure (forall_mem_cons.mpr ⟨hf, hr⟩)
  induction entries generalizing start with
  | nil => exact .pure (forall_mem_nil _)
  | cons entry rest ih =>
    have hb : Yields (blockCode cx rt entry.1 entry.2 start) (fun _ => ∀ stmt ∈ entry.2.statements, Callable cx.program stmt.action) := by
      rw [blockCode_eq]
      refine .bind (hc _) fun _ hss => .next fun _ => .pure fun stmt hs => ?_
      rw [← zipIdx_map_fst start entry.2.statements] at hs
      obtain ⟨numbered, hn, rfl⟩ := mem_map.mp hs
      exact hss numbered hn
    refine .bind hb fun _ hf => .bind (ih _) fun _ hr => .pure ?_
    exact forall_mem_append.mpr ⟨hf, hr⟩

end

/-- A subroutine that has code calls no native subroutine without the type of a function. -/
theorem subroutineCode_callsFunctions (cx : Context) (id : SubroutineId) (sub : Subroutine) (body : Body) (sym : String) :
    Yields (subroutineCode cx id sub body sym) (fun _ => CallsFunctions cx.program body) := by
  refine .next fun _ => .next fun _ => .next fun ⟨_, _⟩ => .next fun _ => .bind (blocksCode_callable _ _ _) fun _ hb =>
    .next fun _ => .next fun _ => .pure ?_
  rwa [flatMap_statements_entries] at hb

/-! ## Subroutines -/

/-- A body that needs `words` words for native calls, while its blocks are selected. -/
def routineOf (id : SubroutineId) (sym : String) (body : Body) (words : Nat) : Routine :=
  ⟨id, sym, body, withRecords (layoutOf body words).frame (layoutOf body words).records, (layoutOf body words).scratch⟩

/-- The effect of the statements of a body. -/
def bodyEffect (cx : Context) (names : Table String) (id : SubroutineId) (body : Body) : Effect :=
  match scratchWords cx.program body with
  | .ok words =>
    .all (fun stmt => (statementCode cx (routineOf id "" body words) 0 stmt).effect names) (bodyStatements body)
  | .error _ => .none

/-- What is needed of a subroutine whose blocks are selected, for its statements to have the effects of those of `rt`: it is its
like in a program with other subroutines, and no statement of it is given up. -/
structure Counterpart (cx : Context) (others : Table Subroutine) (names : Table String) (rt other : Routine) : Prop where
  akin : AllAkin cx.program.subroutines others
  names_length : names.length = (cx.withSubs others).program.subroutines.length
  calls : CallsFunctions (cx.withSubs others).program other.body
  ready : other.Ready (cx.withSubs others)
  frame_eq : other.frame = rt.frame
  scratch_eq : other.scratch = rt.scratch
  values_eq : other.body.values = rt.body.values

section

variable {cx : Context} {others : Table Subroutine} {names : Table String} {rt other : Routine}

variable (h : Counterpart cx others names rt other)
include h

theorem statementCode_does {stmt : Flow.Statement} (hs : stmt ∈ bodyStatements other.body) (num : Nat) :
    Does names (statementCode (cx.withSubs others) other num stmt)
      ((statementCode cx rt 0 stmt).effect names) (fun _ => True) := by
  intro kept out after hk hrun
  have hp : Parallel names Whatever _ _ := statementCode_parallel h.akin rt other h.frame_eq h.scratch_eq h.values_eq 0 num stmt
  refine ⟨?_, hp.takes hk hrun⟩
  have hw : ∀ n, nativeWords (cx.withSubs others).program stmt = .ok n →
      n ≤ ((nativeWords (cx.withSubs others).program stmt).toOption.getD 0) := by
    intro n hn
    rw [hn]
    exact Nat.le_refl n
  have hsl : Selects _ kept _ _ _ := statementCode_selects (fun _ : True => h.ready) (fun _ => hs) hw num
  cases out with
  | error refusal =>
    have hr := hsl.given.allowed (by rw [Selection.Aligned, hk, h.names_length]) hrun
    exact absurd hr ((h.calls stmt hs).not_notNative refusal)
  | ok res => exact ⟨res, rfl, trivial⟩

theorem blockCode_does {id : BlockId} {block : Block} (hb : other.body.blocks[id]? = some block) (start : Nat) :
    Does names (blockCode (cx.withSubs others) other id block start)
      (.all (fun stmt => (statementCode cx rt 0 stmt).effect names) block.statements) (fun _ => True) := by
  rw [blockCode_eq, ← Effect.all_zipIdx _ block.statements start]
  refine .bind_none (.collect _ _ fun entry he => ?_) fun _ _ => .bind_none (.of_silent h.names_length (terminatorCode_silent _ _)
    (fun kept => terminatorCode_selects 0 (fun _ => h.ready) fun _ => hb) fun _ _ _ => trivial) fun _ _ => .pure trivial
  refine statementCode_does h (mem_bodyStatements.mpr ⟨id, block, hb, ?_⟩) entry.2
  exact (mem_zipIdx he).2.2 ▸ getElem_mem _

theorem blocksCode_does (start : Nat) (entries : List (BlockId × Block))
    (he : ∀ entry ∈ entries, other.body.blocks[entry.1]? = some entry.2) :
    Does names (blocksCode (cx.withSubs others) other start entries) (.all (fun stmt => (statementCode cx rt 0 stmt).effect names)
        (entries.flatMap fun entry => entry.2.statements)) (fun _ => True) := by
  induction entries generalizing start with
  | nil => exact .pure trivial
  | cons entry rest ih =>
    obtain ⟨hb, hr⟩ := forall_mem_cons.mp he
    rw [flatMap_cons, Effect.all_append]
    exact .bind (blockCode_does h hb start) fun _ _ => .bind_none (ih _ hr) fun _ _ => .pure trivial

end

section

variable {cx : Context} {others : Table Subroutine} {names : Table String}

/-- The code of a subroutine that can be left has the effect of its statements. -/
theorem subroutineCode_does (ha : AllAkin cx.program.subroutines others)
    (hn : names.length = (cx.withSubs others).program.subroutines.length)
    {id : SubroutineId} {other : Subroutine} {body body' : Body} (hc : CallsFunctions cx.program body)
    (hr : Rearranged body body') (hsn : body'.Sound (cx.withSubs others).program.literals)
    (hp : body'.Placed) {exit : Exit}
    (hex : Does names (exitOf (cx.withSubs others) id other) .none (· = exit)) (sym : String) :
    Does names (subroutineCode (cx.withSubs others) id other body' sym) (bodyEffect cx names id body) (fun _ => True) := by
  refine .next hex fun _ _ => .next (.of_silent hn (.of_fixed (.lookUp _)) (fun kept => .lookUp _)
    fun words _ hw => hw) fun words hw => ?_
  have he : bodyEffect cx names id body = .all (fun stmt =>
      (statementCode cx (routineOf id "" body words) 0 stmt).effect names) (bodyStatements body) := by
    rw [bodyEffect, scratchWords_of_rearranged ha hr hw]
  rw [he]
  refine .perm ?_ hr.statements
  have hcv : (layoutOf body' words).frame.Covers ((layoutOf body' words).records.map Prod.fst) := by
    intro val hv
    rw [records_layoutOf] at hv
    rw [slot?_layoutOf]
    exact covers_bodyFrame body' val (by simp [hv])
  refine .next (.of_silent hn (.of_fixed (copyCode_fixed _ _)) (fun kept => copyCode_selects _ _ fun _ => hcv)
    fun _ _ h => h.1) fun ⟨copy, frame⟩ hf => ?_
  subst hf
  have hrd := ready_of_layoutOf hsn hp hw id sym
  have hcn : Counterpart cx others names (routineOf id "" body words) (routineOf id sym body' words) := by
    refine ⟨ha, hn, (callsFunctions_withSubroutines ha hr).mpr hc, hrd, ?_, ?_, hr.values_eq⟩
    · simp only [routineOf, hr.layoutOf_eq]
    · simp only [routineOf, hr.layoutOf_eq]
  have hs : ∀ val, val = body'.returnValue ∨ val ∈ body'.parameters ++ body'.locals ++ body'.temporaries →
      ((routineOf id sym body' words).frame.slot? val).isSome = true := by
    intro val hv
    rw [← mem_cons, hsn.values_eq, mem_range] at hv
    exact hrd.frame.slots val hv
  have hen : ∀ entry ∈ body'.blocks.entries, body'.blocks[entry.1]? = some entry.2 := fun entry het => Table.mem_entries.mp het
  have hb := blocksCode_does hcn 0 body'.blocks.entries hen
  rw [flatMap_statements_entries] at hb
  have hvr : ∀ val ∈ ownedVariables body', val ∈ body'.parameters ++ body'.locals ++ body'.temporaries := by
    intro val hv
    rw [append_assoc]
    exact mem_append_right _ (mem_filter.mp hv).1
  have hd : Does names (collect (defaultCode (cx.withSubs others) (routineOf id sym body' words).frame body')
      (ownedVariables body')) .none (fun _ => True) :=
    .of_silent hn (.collect (fun _ => defaultCode_silent _ _ _ _) _) (fun _ => collect_pieces_selects _ _ fun val hv _ =>
        defaultCode_selects fun _ => hs val (Or.inr (hvr val hv)))
      fun _ _ _ => trivial
  have hdr : Does names (dropCode (routineOf id sym body' words).frame (ownedValues body')) .none (fun _ => True) :=
    .of_silent hn (dropCode_silent _ _)
      (fun _ => dropCode_selects fun _ val hv => hs val (Or.inr (mem_filter.mp hv).1)) fun _ _ _ => trivial
  have hl : ∀ exit, Does names (exitItems (routineOf id sym body' words).frame body'.returnValue exit) .none (fun _ => True) :=
    fun exit => .of_silent hn (exitItems_silent _ _ _) (fun _ => exitItems_selects (fun _ => hs _ (Or.inl rfl)) exit) fun _ _ _ => trivial
  exact .next hd fun _ _ => .bind_none hb fun _ _ => .next hdr fun _ _ => .next (hl _) fun _ _ => .pure trivial

end

/-! ## Pieces of work -/

/-- The effect of a subroutine with a body: that of its statements, or that it is refused. -/
def subroutineEffect (cx : Context) (names : Table String) (id : SubroutineId) (sub : Subroutine) (body : Body) : Effect :=
  match (exitOf cx id sub).run.run (.blank names) with
  | .ok (.error refusal, _) =>
    ⟨[], [refusal.report sub.symbol.location ("`" ++ (cx.program.subroutineName id).toOption.getD "" ++ "`")]⟩
  | _ => bodyEffect cx names id body

/-- The effect of a piece of work. -/
def taskEffect (cx : Context) (names : Table String) : Task → Effect
  | .subroutine id =>
    (cx.program.subroutines[id]?.bind fun sub =>
      sub.body?.map (subroutineEffect cx names id sub)).getD .none
  | .initializer ty =>
    ((cx.program.classOfType? ty).map fun decl => (initializerCode cx decl "").effect names).getD .none

section

variable {cx : Context} {others : Table Subroutine} {names : Table String} {sub other : Subroutine}

theorem exitOf_eq (h : Akin sub other) (id : SubroutineId) : exitOf (cx.withSubs others) id other = exitOf cx id sub := by
  unfold exitOf exitCode
  rw [h.ty_eq]
  rfl

/-- The code of a subroutine has the effect of its statements, or nothing comes of it because the subroutine cannot be left. -/
theorem subroutineCode_takes (ha : AllAkin cx.program.subroutines others)
    (hpr : (cx.withSubs others).Prepared) {id : SubroutineId} {body body' : Body}
    (hc : CallsFunctions cx.program body) (hs : Akin sub other)
    (ho : (cx.withSubs others).program.subroutines[id]? = some other) (hb' : other.kind = .defined body')
    (hr : Rearranged body body') {sym : String} {kept after : Selection}
    {out : Except Refusal (List Item × Frame)}
    (hn : names.length = (cx.withSubs others).program.subroutines.length)
    (hk : kept.symbols.subroutines = names)
    (hrun : (subroutineCode (cx.withSubs others) id other body' sym).run.run kept = .ok (out, after)) :
    (∃ res, out = .ok res ∧ (subroutineEffect cx names id sub body).Takes kept after) ∨ ∃ refusal, out = .error refusal ∧ after = kept ∧
        (exitOf cx id sub).run.run (.blank names) = .ok (.error refusal, .blank names) := by
  obtain ⟨hsn, hp⟩ := hpr.bodies id other body' ho hb'
  obtain ⟨fixed, hf⟩ := exitOf_fixed cx id sub
  have hl : ∀ kept, (exitOf (cx.withSubs others) id other).run.run kept = fixed.map fun res => (res, kept) := by
    rw [exitOf_eq hs]
    exact hf
  obtain ⟨⟨found, later⟩, he, hrs⟩ := of_bind_eq_ok hrun
  have hfn := (hl kept).symm.trans he
  cases fixed with
  | error fault => cases hfn
  | ok res =>
    cases res with
    | error refusal =>
      cases hfn
      cases hrs
      exact Or.inr ⟨refusal, rfl, rfl, hf _⟩
    | ok exit =>
      have hd : Does names (exitOf (cx.withSubs others) id other) .none (· = exit) := by
        intro kept out after _ hrun
        obtain ⟨rfl, rfl⟩ := ok_pair_inj ((hl kept).symm.trans hrun)
        exact ⟨⟨exit, rfl, rfl⟩, .refl kept⟩
      obtain ⟨⟨res, hrl, -⟩, ht⟩ := subroutineCode_does ha hn hc hr hsn hp hd sym kept out after hk hrun
      refine Or.inl ⟨res, hrl, ?_⟩
      rw [subroutineEffect, hf]
      exact ht

/-- Every native subroutine that the piece of work calls has the type of a function. -/
def Task.Whole (prog : Flow.Program) : Task → Prop
  | .subroutine id => ∀ sub body, prog.subroutines[id]? = some sub → sub.kind = .defined body → CallsFunctions prog body
  | .initializer _ => True

/-- Whenever a piece of work is done, and in whatever arrangement, its effect is the same. -/
theorem Handles.takes (ha : AllAkin cx.program.subroutines others) (hp : (cx.withSubs others).Prepared)
    {before next : Emission} {work : Work} {out : Outcome} (hw : work.task.Whole cx.program)
    (hsj : work.HasSubject (cx.withSubs others)) (hal : before.kept.Aligned (cx.withSubs others))
    (h : Handles (cx.withSubs others) before work out next) :
    (taskEffect cx before.kept.symbols.subroutines work.task).Takes before.kept next.kept := by
  have he : ∀ (id : SubroutineId) (other : Subroutine) (body' : Body),
      (cx.withSubs others).program.subroutines[id]? = some other → other.kind = .defined body' →
      ∃ sub body, cx.program.subroutines[id]? = some sub ∧ sub.kind = .defined body ∧
        Akin sub other ∧ Rearranged body body' ∧ taskEffect cx before.kept.symbols.subroutines (.subroutine id) =
          subroutineEffect cx before.kept.symbols.subroutines id sub body := by
    intro id other body' ho hb'
    obtain ⟨sub, hsb, hs⟩ := getElem?_of_forall₂ ha.flip ho
    obtain ⟨body, hb, hr⟩ := hs.exists_body hb'
    refine ⟨sub, body, hsb, hb, hs, hr, ?_⟩
    simp [taskEffect, hsb, Subroutine.body?, hb]
  cases h with
  | @subroutine id other body' name items frame kept places hid hb hrun hn hpl =>
    obtain ⟨sub, body, hsb, hd, hs, hr, ht⟩ := he id other body' hid hb
    have hcl : CallsFunctions cx.program body := hw sub body hsb hd
    rw [Work.task, ht]
    rcases subroutineCode_takes ha hp hcl hs hid hb hr hal rfl hrun with
      ⟨_, -, htk⟩ | ⟨refusal, hrf, -⟩
    · exact htk
    · cases hrf
  | @subroutineRefused id other body' name refusal kept hid hb hrun hn =>
    obtain ⟨sub, body, hsb, hd, hs, hr, ht⟩ := he id other body' hid hb
    have hcl : CallsFunctions cx.program body := hw sub body hsb hd
    rw [Work.task, ht]
    rcases subroutineCode_takes ha hp hcl hs hid hb hr hal rfl hrun with
      ⟨_, hrs, -⟩ | ⟨found, hf, rfl, hex⟩
    · cases hrs
    · cases hf
      have hn' : cx.program.subroutineName id = .ok name := (subroutineName_eq ha id).symm.trans hn
      rw [subroutineEffect, hex, hn', ← hs.symbol_eq]
      exact ⟨rfl, fun _ => (or_iff_left not_mem_nil).symm, _, rfl, .refl _⟩
  | nameless hid hb hs => cases hs.symm.trans (hal.subroutine?_eq rfl hid)
  | bodiless hb =>
    obtain ⟨sub, hid, hsm⟩ := hsj
    rw [hb sub hid] at hsm
    cases hsm
  | @initializer ty sym decl items kept hc hrun =>
    have hpr : Parallel before.kept.symbols.subroutines Whatever _ _ := initializerCode_parallel ha decl "" sym
    have hc' : cx.program.classOfType? ty = some decl := hc
    rw [Work.task, taskEffect, hc']
    exact hpr.takes rfl hrun
  | @initializerRefused ty sym decl refusal kept hc hrun =>
    have hsl := hp.initializer_selects hc sym before.kept
    exact (hsl.allowed hal hrun).elim
  | @classless ty sym name hc =>
    have hsm : ((cx.withSubs others).program.classOfType? ty).isSome = true := hsj
    rw [hc] at hsm
    cases hsm

theorem Handles.whole (ha : AllAkin cx.program.subroutines others) {before next : Emission} {work : Work} {items : List Item}
    (h : Handles (cx.withSubs others) before work (.emitted items) next) : work.task.Whole cx.program := by
  cases h with
  | @subroutine id other body' name items frame kept places hid hb hrun hn hp =>
    intro sub body hsb hd
    obtain ⟨found, hf, hs⟩ := getElem?_of_forall₂ ha.flip hid
    cases hsb.symm.trans hf
    obtain ⟨body₀, hb₀, hr⟩ := hs.exists_body hb
    obtain rfl := Flow.SubroutineKind.defined.inj (hd.symm.trans hb₀)
    exact (callsFunctions_withSubroutines ha hr).mp (subroutineCode_callsFunctions _ _ _ _ _ _ _ _ hrun)
  | initializer hc hrun => trivial

end

end TagAsm.Select
