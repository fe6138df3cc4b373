import TagAsm.Proofs.Correspondence
import TagAsm.Proofs.Framing
import TagAsm.Proofs.Settling

/-!
# Merging rearranges statements

A merged body has the statements of the body that it was made from, in another order, and its values. Neither the frame of a body
nor what a program calls its subroutines depends on that order.
-/

namespace TagAsm.Select

open TagAsm.Flow Asm.SymbolTable Program

/-! ## What is rearranged -/

/-- Another body with the same values, and with the same statements in some order. -/
structure Rearranged (body other : Body) : Prop where
  returnValue_eq : other.returnValue = body.returnValue
  parameters_eq : other.parameters = body.parameters
  locals_eq : other.locals = body.locals
  temporaries_eq : other.temporaries = body.temporaries
  values_eq : other.values = body.values
  statements : (bodyStatements other).Perm (bodyStatements body)

theorem Rearranged.refl (body : Body) : Rearranged body body := ⟨rfl, rfl, rfl, rfl, rfl, .refl _⟩

/-- A body that passes the check is rearranged when it is merged. -/
theorem rearranged_of_merge {pool : Table Literal} {body merged : Body} {removed : Nat} (hb : body.WellFormed pool)
    (h : body.merge = .ok (removed, merged)) : Rearranged body merged := by
  have hc : body.Checked := ⟨hb.wired.entry_lt, hb.wired.sink_lt, hb.verified⟩
  obtain ⟨removed', merged', hm, hst⟩ := hc.merge_eq_ok
  obtain ⟨-, rfl⟩ := ok_pair_inj (hm.symm.trans h)
  obtain ⟨rows, hg⟩ := hst.gathered hc
  have hs := hg.merged_eq
  refine ⟨?_, ?_, ?_, ?_, ?_, hg.perm_part Block.isPart_statements⟩
  all_goals rw [hs]

/-! ## Frames -/

section

variable {body other : Body} (h : Rearranged body other)
include h

/-- Which values receive an address does not depend on the order of the statements. -/
theorem Rearranged.mem_referenceValues (val : ValueId) : val ∈ referenceValues other ↔ val ∈ referenceValues body :=
  (h.statements.filterMap referenceResult?).mem_iff

/-- The frame does not depend on the order of the statements. -/
theorem Rearranged.layoutOf_eq (words : Nat) : layoutOf other words = layoutOf body words := by
  have hr : (fun val => decide (val ∈ referenceValues other)) = fun val => decide (val ∈ referenceValues body) :=
    funext fun val => decide_eq_decide.mpr (h.mem_referenceValues val)
  unfold layoutOf registerParameters stackParameters
  dsimp only
  rw [h.returnValue_eq, h.parameters_eq, h.locals_eq, h.temporaries_eq, hr]

end

/-! ## Programs -/

/-- Subroutines that differ in the arrangement of their statements at most. -/
structure Akin (sub other : Subroutine) : Prop where
  symbol_eq : other.symbol = sub.symbol
  ty_eq : other.ty = sub.ty
  linkage_eq : other.linkage = sub.linkage
  owner_eq : other.owner = sub.owner
  kind : other.kind = sub.kind ∨ ∃ body body', sub.kind = .defined body ∧ other.kind = .defined body' ∧ Rearranged body body'

namespace Akin

variable {sub other : Subroutine}

theorem refl (sub : Subroutine) : Akin sub sub := ⟨rfl, rfl, rfl, rfl, Or.inl rfl⟩

variable (h : Akin sub other)
include h

theorem isForeign_eq : other.isForeign = sub.isForeign := by
  rw [Subroutine.isForeign, Subroutine.isForeign, h.linkage_eq]

/-- What has a body has one in another arrangement. -/
theorem exists_body {body' : Body} (hb' : other.kind = .defined body') : ∃ body, sub.kind = .defined body ∧ Rearranged body body' := by
  rcases h.kind with hk | ⟨body, found, hb, hf, hr⟩
  · exact ⟨body', hk ▸ hb', .refl body'⟩
  · obtain rfl := SubroutineKind.defined.inj (hf.symm.trans hb')
    exact ⟨body, hb, hr⟩

theorem isSome_body? : other.body?.isSome = sub.body?.isSome := by
  rcases h.kind with hk | ⟨body, body', hb, hb', -⟩
  · rw [Subroutine.body?, Subroutine.body?, hk]
  · rw [Subroutine.body?, Subroutine.body?, hb, hb']
    rfl

theorem nativeName?_eq : nativeName? other = nativeName? sub := by
  unfold nativeName?
  rw [h.isForeign_eq, h.symbol_eq]
  rcases h.kind with hk | ⟨body, body', hb, hb', -⟩
  · rw [hk]
  · rw [hb, hb']

end Akin

/-- Subroutines that are akin one by one. -/
abbrev AllAkin (subroutines others : Table Subroutine) : Prop := List.Forall₂ Akin subroutines others

theorem AllAkin.refl (subroutines : Table Subroutine) : AllAkin subroutines subroutines := List.forall₂_same.mpr fun sub _ => .refl sub

/-- What is found under a number in the one list, in the other one is akin, or not found either. -/
theorem AllAkin.getElem? {subroutines others : Table Subroutine} (h : AllAkin subroutines others) (id : SubroutineId) :
    Option.Rel Akin subroutines[id]? others[id]? := by
  cases hid : subroutines[id]? with
  | none =>
    have hl := h.length_eq
    have hn : others[id]? = none := by
      rw [List.getElem?_eq_none_iff] at hid ⊢
      omega
    rw [hn]
    exact .none
  | some sub =>
    obtain ⟨other, ho, ha⟩ := getElem?_of_forall₂ h hid
    rw [ho]
    exact .some ha

/-- The program with other subroutines. -/
def withSubs (prog : Flow.Program) (others : Table Subroutine) : Flow.Program := { prog with subroutines := others }

/-- Merging blocks rearranges the statements of subroutines, and changes nothing else of a program. -/
theorem akin_of_merge {prog merged : Program} (hp : prog.WellFormed) (h : prog.merge = .ok merged) :
    ∃ others, AllAkin prog.subroutines others ∧ merged = withSubs prog others := by
  obtain ⟨others, hmap, hr⟩ := of_bind_eq_ok h
  cases hr
  refine ⟨others, ?_, rfl⟩
  have hall := (mapM_eq_ok_iff_forall₂ Subroutine.merge prog.subroutines others).mp hmap
  refine List.forall₂_iff_get.mpr ⟨hall.length_eq, fun id hid hid' => ?_⟩
  have hm := (List.forall₂_iff_get.mp hall).2 id hid hid'
  have hb : ∀ body, (prog.subroutines.get ⟨id, hid⟩).kind = .defined body → body.WellFormed prog.literals :=
    fun body => hp.bodies id _ body (List.getElem?_eq_getElem hid)
  generalize prog.subroutines.get ⟨id, hid⟩ = sub at hm hb
  generalize others.get ⟨id, hid'⟩ = other at hm
  unfold Subroutine.merge at hm
  split at hm
  · rename_i body hk
    obtain ⟨⟨removed, merged⟩, hmr, hr⟩ := of_bind_eq_ok hm
    cases hr
    exact ⟨rfl, rfl, rfl, rfl, Or.inr ⟨body, merged, hk, rfl, rearranged_of_merge (hb body hk) hmr⟩⟩
  all_goals
    cases hm
    exact .refl sub

section

variable {prog : Flow.Program} {others : Table Subroutine}

variable (h : AllAkin prog.subroutines others)
include h

/-- A subroutine has its name whatever the arrangement of its statements. -/
theorem subroutineName_eq (id : SubroutineId) : (withSubs prog others).subroutineName id = prog.subroutineName id := by
  have hf : Option.Rel Akin prog.subroutines[id]? (withSubs prog others).subroutines[id]? := h.getElem? id
  unfold subroutineName Table.fetch
  generalize prog.subroutines[id]? = found at hf ⊢
  generalize (withSubs prog others).subroutines[id]? = found' at hf ⊢
  cases hf with
  | none => rfl
  | @some sub other ha =>
    dsimp only [bind, Except.bind]
    rw [ha.owner_eq, ha.symbol_eq]
    rfl

/-- What a statement does is shown in the same words. -/
theorem actionText_eq {body other : Body} (hvs : other.values = body.values) (colored : Bool) (act : Action) :
    (withSubs prog others).actionText other colored act = prog.actionText body colored act := by
  have hv : other.valueText colored = body.valueText colored := by
    funext id
    rw [Body.valueText, Body.valueText, hvs]
  have hm : other.valuesText colored = body.valuesText colored := by
    funext ids
    rw [Body.valuesText, Body.valuesText, hv]
  have hl : (withSubs prog others).literalText = prog.literalText := rfl
  have ht : (withSubs prog others).typeName = prog.typeName := rfl
  cases act with
  | call res callee args =>
    simp only [actionText, subroutineText, subroutineName_eq h, hv, hm]
  | assign dst src =>
    cases src with
    | subroutine id =>
      simp only [actionText, sourceText, subroutineText, subroutineName_eq h, hv]
    | _ =>
      simp only [actionText, sourceText, hv, hl]
  | _ =>
    simp only [actionText, hv, hm, hl, ht]

/-- The symbols of the subroutines are the same. -/
theorem ofProgram_eq (reserved : List String) : ofProgram (withSubs prog others) reserved = ofProgram prog reserved := by
  have hl : ∀ (subroutines others' : Table Subroutine) acc, AllAkin subroutines others' →
      others'.foldlM (nameSubroutine (withSubs prog others)) acc = subroutines.foldlM (nameSubroutine prog) acc := by
    intro subroutines others' acc ha
    induction ha generalizing acc with
    | nil => rfl
    | @cons sub other rest rest' hf _ ih =>
      have hn : nameSubroutine (withSubs prog others) acc other = nameSubroutine prog acc sub := by
        unfold nameSubroutine baseName
        rw [hf.nativeName?_eq, hf.owner_eq, hf.symbol_eq]
        rfl
      rw [List.foldlM_cons, List.foldlM_cons, hn]
      exact bind_congr fun next => ih next
  exact congrArg (· >>= _) (hl prog.subroutines others ([], Asm.startSymbol :: reserved) h)

/-- A statement needs the same words for a native call. -/
theorem nativeWords_eq (stmt : Statement) : nativeWords (withSubs prog others) stmt = nativeWords prog stmt := by
  unfold nativeWords
  cases stmt.action with
  | call res callee args =>
    have hf : Option.Rel Akin prog.subroutines[callee]? (withSubs prog others).subroutines[callee]? := h.getElem? callee
    dsimp only
    generalize prog.subroutines[callee]? = found at hf ⊢
    generalize (withSubs prog others).subroutines[callee]? = found' at hf ⊢
    cases hf with
    | none => rfl
    | some ha =>
      dsimp only
      rw [ha.isForeign_eq, ha.ty_eq]
      rfl
  | _ => rfl

/-- The words for native calls do not depend on the order of the statements. -/
theorem scratchWords_of_rearranged {body other : Body} (hb : Rearranged body other) {words : Nat}
    (hw : scratchWords (withSubs prog others) other = .ok words) : scratchWords prog body = .ok words := by
  obtain ⟨counts, hc, hmax⟩ := of_bind_eq_ok hw
  cases hmax
  have hs : nativeWords (withSubs prog others) = nativeWords prog := funext fun s => nativeWords_eq h s
  rw [hs, mapM_eq_ok_iff_forall₂] at hc
  obtain ⟨counts', hc', hp⟩ := List.perm_comp_forall₂ hb.statements.symm hc
  rw [scratchWords, (mapM_eq_ok_iff_forall₂ _ _ _).mpr hc']
  exact congrArg Except.ok (hp.foldl_eq 0)

end

end TagAsm.Select
