import TagAsm.Proofs.Correspondence
import TagAsm.Proofs.Framing
import TagAsm.Proofs.Gathering

/-!
# Addresses are received before they are used

In a lowered body the statements of every block are in sequence, and no two blocks share more than declared values
(`Body.Ordered`). So a temporary that receives an address does so once, before all else that mentions it and in the block that
mentions it; and no other temporary is written twice. Merging puts blocks one behind the other. As they share declared values
only, the statements are in sequence still.
-/

namespace TagAsm.Flow.Body

/-! ## Bodies -/

/-- The number of values that a body declares: the return value, the parameters and the locals. -/
def declaredCount (body : Body) : Nat := 1 + (body.parameters ++ body.locals).length

/-- The blocks of a body are in sequence and apart, and none of them tests an address. -/
structure Ordered (body : Body) : Prop where
  sequenced : ∀ id, Sequenced body.declaredCount body.returnValue (body.partAt Block.statements id)
  apart : ∀ id other, id ≠ other → Apart body.declaredCount (body.partAt Block.statements id) (body.partAt Block.statements other)
  tests : ∀ (id : BlockId) (block : Block), body.blocks[id]? = some block → ∀ condition ∈ block.terminator.condition?,
    ∀ other, condition ∉ references (body.partAt Block.statements other)

variable {body res : Body}

/-- Where no block has more than a block had before, and different blocks have it from different ones. -/
theorem Renumbered.ordered {order : List BlockId} (h : Renumbered body res order) (hb : body.Ordered) : res.Ordered := by
  have hd : res.declaredCount = body.declaredCount ∧ res.returnValue = body.returnValue := by
    rw [h.result_eq]
    exact ⟨rfl, rfl⟩
  have hp : ∀ id, res.partAt Block.statements id = [] ∨ ∃ old, order.idxOf old = id ∧
      res.partAt Block.statements id = body.partAt Block.statements old := by
    intro id
    rcases Nat.lt_or_ge id res.blocks.length with hlt | hge
    · obtain ⟨old, hold, rfl⟩ := h.exists_eq_idxOf hlt
      exact Or.inr ⟨old, rfl, h.partAt_idxOf Block.isPart_statements hold⟩
    · exact Or.inl (by rw [partAt, List.getElem?_eq_none hge]; rfl)
  refine ⟨fun id => ?_, fun id other hne => ?_, fun id block hbl cond hc other => ?_⟩
  · rw [hd.1, hd.2]
    rcases hp id with hn | ⟨old, -, hold⟩
    · rw [hn]
      exact .nil
    · rw [hold]
      exact hb.sequenced old
  · rw [hd.1]
    rcases hp id with hn | ⟨old, rfl, hold⟩
    · rw [hn]
      exact fun _ hmem => (List.not_mem_nil hmem).elim
    · rcases hp other with hn' | ⟨old', rfl, hold'⟩
      · rw [hn']
        exact fun _ _ hmem => (List.not_mem_nil hmem).elim
      · rw [hold, hold']
        exact hb.apart old old' fun heq => hne (heq ▸ rfl)
  · obtain ⟨old, before, hbf, rfl⟩ := h.exists_before hbl
    rw [Block.renumber, Terminator.condition?_renumber] at hc
    rcases hp other with hn | ⟨old', -, hold'⟩
    · rw [hn]
      exact List.not_mem_nil
    · rw [hold']
      exact hb.tests old before hbf cond hc old'

/-- What a block has after a fold, it or the folded block had before. -/
theorem Foldable.ordered_fold {Live : BlockId → Prop} {id tgt : BlockId} {block : Block} {sources : List BlockId}
    (h : Foldable body Live id tgt block sources) (hbd : body.Ordered) :
    (body.fold id tgt block sources).Ordered := by
  have hp := h.partAt_fold Block.isPart_statements
  have hne : id ≠ tgt := h.target_ne.symm
  have ho : ∀ x val, val ∈ mentions ((body.fold id tgt block sources).partAt Block.statements x) →
      ∃ old, val ∈ mentions (body.partAt Block.statements old) ∧ (old = x ∧ x ≠ id ∨ old = id ∧ x = tgt) := by
    intro x val hv
    rw [hp] at hv
    by_cases hx : x = id
    · rw [if_pos hx] at hv
      exact (List.not_mem_nil hv).elim
    · rw [if_neg hx] at hv
      by_cases ht : x = tgt
      · rw [if_pos ht, mentions_append, List.mem_append] at hv
        rcases hv with hf | hown
        · exact ⟨id, hf, Or.inr ⟨rfl, ht⟩⟩
        · exact ⟨x, ht ▸ hown, Or.inl ⟨rfl, hx⟩⟩
      · rw [if_neg ht] at hv
        exact ⟨x, hv, Or.inl ⟨rfl, hx⟩⟩
  refine ⟨fun x => ?_, fun x y hxy => ?_, fun x b hb cond hc other => ?_⟩
  · rw [hp]
    split
    · exact .nil
    · split
      · exact (hbd.sequenced id).append (hbd.sequenced tgt) (hbd.apart id tgt hne)
      · exact hbd.sequenced x
  · rintro val hx hy
    obtain ⟨old, hmem, hold⟩ := ho x val hx
    obtain ⟨old', hmem', hold'⟩ := ho y val hy
    refine hbd.apart old old' ?_ val hmem hmem'
    rcases hold with ⟨rfl, hl⟩ | ⟨rfl, rfl⟩
    · rcases hold' with ⟨rfl, -⟩ | ⟨rfl, -⟩
      · exact hxy
      · exact hl
    · rcases hold' with ⟨rfl, hl⟩ | ⟨-, rfl⟩
      · exact hl.symm
      · exact absurd rfl hxy
  · obtain ⟨before, hbf, htr, -⟩ := exists_of_getElem?_fold hb
    have hold : cond ∈ before.terminator.condition? := by
      rcases htr with hs | hm
      · rwa [hs] at hc
      · rwa [hm, Terminator.condition?_renumber] at hc
    have hpl := hbd.tests x before hbf cond hold
    rw [hp]
    split
    · exact List.not_mem_nil
    · split
      · rw [references_append, List.mem_append, not_or]
        exact ⟨hpl id, hpl tgt⟩
      · exact hpl other

theorem MergeStep.ordered (h : MergeStep body res) (hb : body.Ordered) : res.Ordered := by
  cases h with
  | fold h => exact h.ordered_fold hb
  | prune h => exact h.toRenumbered.ordered hb

/-- Merging keeps the blocks in sequence and apart. -/
theorem MergeSteps.ordered (h : MergeSteps body res) (hb : body.Ordered) : res.Ordered := by
  induction h with
  | refl => exact hb
  | tail _ hs ih => exact hs.ordered ih

end TagAsm.Flow.Body

namespace TagAsm.Lower

open TagAsm.Flow List

/-- The body that a tidy draft becomes is ordered. -/
theorem Draft.Tidy.ordered {start : Start} {draft : Draft} {graph : Body} (h : draft.Tidy start)
    (hd : graph.declaredCount = start.declared) (hrt : graph.returnValue = start.returnValue)
    (hbs : graph.blocks = draft.blocks.map DraftBlock.close) : graph.Ordered := by
  have hp : ∀ id, graph.partAt Block.statements id = draft.rows[id]?.getD [] := by
    intro id
    rw [Body.partAt, hbs, Draft.rows, getElem?_map, getElem?_map, Option.map_map]
    rfl
  have hrow : ∀ id, graph.partAt Block.statements id = [] ∨ graph.partAt Block.statements id ∈ draft.rows := by
    intro id
    rw [hp]
    cases hf : draft.rows[id]? with
    | none => exact Or.inl rfl
    | some row => exact Or.inr (mem_of_getElem? hf)
  refine ⟨fun id => ?_, fun id other hne => ?_, fun id block hb cond hc other => ?_⟩
  · rw [hd, hrt]
    rcases hrow id with hn | hmem
    · rw [hn]
      exact .nil
    · exact (h.rows _ hmem).sequenced
  · rw [hd, hp, hp]
    cases hfr : draft.rows[id]? with
    | none => exact fun _ hmem => (not_mem_nil hmem).elim
    | some first =>
      cases hr : draft.rows[other]? with
      | none => exact fun _ _ hmem => (not_mem_nil hmem).elim
      | some rest =>
        obtain ⟨hid, rfl⟩ := List.getElem?_eq_some_iff.mp hfr
        obtain ⟨ho, rfl⟩ := List.getElem?_eq_some_iff.mp hr
        have hpr := pairwise_iff_getElem.mp h.apart
        rcases Nat.lt_or_gt_of_ne hne with hlt | hgt
        · exact hpr id other hid ho hlt
        · exact (hpr other id ho hid hgt).symm
  · rw [hbs, getElem?_map] at hb
    obtain ⟨row, hf, rfl⟩ := Option.map_eq_some_iff.mp hb
    have hpl := ((h.terminatorSound_close hf).testable cond hc).plain
    rcases hrow other with hn | hmem
    · rw [hn]
      exact not_mem_nil
    · exact hpl _ hmem

theorem ordered_draftBody (name : String) (ret : TypeId) (params locals : List Source.Variable) (body : Source.Stmt)
    (literals : Table Literal) (diags : Diagnostics) :
    (draftBody name ret params locals body literals diags).1.Ordered := by
  obtain ⟨-, ht, -⟩ := lowerToSink_tidies ret (params ++ locals) literals diags name body
  refine Draft.Tidy.ordered ht ?_ rfl rfl
  show 1 + (range' 1 params.length ++ range' (1 + params.length) locals.length).length = _
  simp

/-! ## Programs -/

/-- The bodies of these subroutines are ordered. -/
def SubroutinesOrdered (subroutines : Table Subroutine) : Prop :=
  ∀ (id : SubroutineId) (sub : Subroutine) (body : Body), subroutines[id]? = some sub → sub.kind = .defined body → body.Ordered

variable {src : Source.Program}

theorem lowerKind_ordered {fn : Source.Function} {lowering after : Lowering} {kind : SubroutineKind}
    (h : lowerKind src fn lowering = .ok (kind, after)) : ∀ body, kind = .defined body → body.Ordered := by
  rintro body rfl
  unfold lowerKind at h
  cases hk : fn.kind with
  | defined params locals stmt =>
    simp only [hk] at h
    obtain ⟨⟨graph, last⟩, hb, hd⟩ := of_bind_eq_ok h
    obtain ⟨heq, -⟩ := ok_pair_inj hd
    cases heq
    obtain ⟨_, _, _, _, ⟨⟩, hp, -⟩ := lowerBody_pruned hb
    exact hp.toRenumbered.ordered (ordered_draftBody _ _ _ _ _ _ _)
  | _ =>
    simp only [hk] at h
    cases h

theorem lowerFunction_ordered (src : Source.Program) (lowering : Lowering) (entry : Source.FunctionId × Source.Function)
    (after : Lowering) (hl : SubroutinesOrdered lowering.subroutines) (h : lowerFunction src lowering entry = .ok after) :
    SubroutinesOrdered after.subroutines := by
  obtain ⟨⟨kind, low⟩, hk, hr⟩ := of_bind_eq_ok h
  obtain ⟨hs, -⟩ := lowerKind_standsFor hk
  cases hr
  intro id sub body hid hd
  rw [Table.push, hs] at hid
  rcases mem_append.mp (mem_of_getElem? hid) with hold | hnew
  · obtain ⟨place, hp⟩ := getElem?_of_mem hold
    exact hl place sub body hp hd
  · rw [mem_singleton.mp hnew] at hd
    exact lowerKind_ordered hk body hd

variable {diags after : Diagnostics} {low prog : Flow.Program}

variable (hlower : lowerProgram src diags = .ok (low, after))
  (hprogram : prog = low ∨ low.merge = .ok prog)
include hlower hprogram

/-- Lowered bodies are ordered, whether their blocks were merged or not. -/
theorem ordered_of_lowerProgram : SubroutinesOrdered prog.subroutines := by
  have hl : SubroutinesOrdered low.subroutines := by
    obtain ⟨lowering, hf, hrs⟩ := of_bind_eq_ok hlower
    obtain ⟨⟨classes, last⟩, -, hr⟩ := of_bind_eq_ok hrs
    obtain ⟨rfl, -⟩ := ok_pair_inj hr
    have he : SubroutinesOrdered [] := fun _ _ _ hid => (nomatch hid)
    exact foldlM_keeps (fun lowering => SubroutinesOrdered lowering.subroutines)
      (fun lowering entry after => lowerFunction_ordered src lowering entry after) _ he hf
  rcases hprogram with rfl | hmr
  · exact hl
  · obtain ⟨subroutines, hmap, hr⟩ := of_bind_eq_ok hmr
    cases hr
    intro id sub body hid hd
    have hall := (mapM_eq_ok_iff_forall₂ Subroutine.merge low.subroutines subroutines).mp hmap
    obtain ⟨before, hb, hm⟩ := getElem?_of_forall₂ hall.flip hid
    unfold Subroutine.merge at hm
    cases hk : before.kind with
    | defined first =>
      have hw := ((lowerProgram_wellFormed hlower).bodies id before first hb hk).wired
      obtain ⟨removed, res, hok, hs⟩ := Body.merge_eq_ok hw
      simp only [hk, hok] at hm
      cases hm
      cases hd
      exact hs.ordered (hl id before first hb hk)
    | _ =>
      simp only [hk] at hm
      cases hm
      exact hl id _ body hb hd

end TagAsm.Lower

namespace TagAsm.Flow

open List

/-! ## Addresses -/

section

variable {declared : Nat} {returnValue val : ValueId} {code : List Statement} {view : Statement → Option ValueId}

section

variable (hview : ∀ stmt, view stmt = some val → stmt.written? = some val)
include hview

/-- A value that nothing mentions is not written. -/
theorem not_mem_filterMap_of_not_mem_mentions (h : val ∉ mentions code) : val ∉ code.filterMap view := by
  intro hmem
  obtain ⟨stmt, hs, hv⟩ := mem_filterMap.mp hmem
  exact h (mem_mentions_of_written hs (hview stmt hv))

/-- What is written only where nothing mentioned it before is written once. -/
theorem count_filterMap_le_one (hnew : ∀ before stmt after, code = before ++ stmt :: after → view stmt = some val →
      val ∉ mentions before) : (code.filterMap view).count val ≤ 1 := by
  induction code using reverseRecOn with
  | nil => exact Nat.zero_le 1
  | append_singleton code stmt ih =>
    rw [filterMap_append, count_append]
    by_cases hv : view stmt = some val
    · have hn := hnew code stmt [] rfl hv
      rw [count_eq_zero_of_not_mem (not_mem_filterMap_of_not_mem_mentions hview hn), filterMap_cons_some hv]
      simp
    · have hl : val ∉ [stmt].filterMap view := by
        rw [mem_filterMap]
        rintro ⟨found, hf, hs⟩
        exact hv (mem_singleton.mp hf ▸ hs)
      rw [count_eq_zero_of_not_mem hl, Nat.add_zero]
      refine ih fun before found after hsp => hnew before found (after ++ [stmt]) ?_
      rw [hsp, append_assoc, cons_append]

end

namespace Sequenced

variable (h : Sequenced declared returnValue code)
include h

/-- No value is made twice. -/
theorem count_result_le_one : (code.filterMap Statement.result?).count val ≤ 1 :=
  count_filterMap_le_one (fun _ => Statement.written?_of_result?)
    fun before stmt after hs hv => ((h before stmt after hs).result val hv).2.1

/-- A value that is not declared and receives no address is not written twice. -/
theorem count_written_le_one (hge : declared ≤ val) (hp : val ∉ references code) : (code.filterMap Statement.written?).count val ≤ 1 := by
  refine count_filterMap_le_one (fun _ hv => hv) fun before stmt after hs hv => ?_
  have hf := h before stmt after hs
  cases hr : stmt.result? with
  | some made =>
    obtain rfl := Option.some.inj ((Statement.written?_of_result? hr).symm.trans hv)
    exact (hf.result made hr).2.1
  | none =>
    rw [Statement.written?, hr] at hv
    rcases hf.destination val hv with hlt | hrf | hnew
    · exact absurd hlt (Nat.not_lt.mpr hge)
    · refine absurd ?_ hp
      rw [hs, references_append]
      exact mem_append_left _ hrf
    · exact hnew

end Sequenced

/-- One block after the other, the statements of an ordered body are in sequence. -/
theorem Body.Ordered.sequenced_bodyStatements {body : Body} (h : body.Ordered) :
    Sequenced body.declaredCount body.returnValue (Select.bodyStatements body) := by
  have hb : ∀ ids : List BlockId, ids.Nodup →
      Sequenced body.declaredCount body.returnValue (ids.flatMap (body.partAt Block.statements)) := by
    intro ids hn
    induction ids with
    | nil => exact .nil
    | cons id rest ih =>
      obtain ⟨hid, hr⟩ := nodup_cons.mp hn
      rw [flatMap_cons]
      refine (h.sequenced id).append (ih hr) fun val hv hl => ?_
      rw [mentions, flatMap_assoc] at hl
      obtain ⟨other, ho, hmem⟩ := mem_flatMap.mp hl
      exact h.apart id other (fun heq => hid (heq ▸ ho)) val hv hmem
  rw [Select.bodyStatements, flatMap_def, map_part_blocks, ← flatMap_def]
  exact hb _ nodup_range

end

end TagAsm.Flow

namespace TagAsm.Select

open TagAsm.Flow

/-- Values that hold addresses are temporaries, made once each, and all else that mentions one stands later in the block that
makes it. The other temporaries are written no more than once. -/
structure SetBeforeUse (body : Body) : Prop where
  isTemporary : ∀ val ∈ referenceValues body, val ∈ body.temporaries
  madeOnce : ∀ val ∈ referenceValues body, ((bodyStatements body).filterMap Statement.result?).count val = 1
  first : ∀ (id : BlockId) (block : Block) (before after : List Statement) (stmt : Statement) (val : ValueId),
    body.blocks[id]? = some block → block.statements = before ++ stmt :: after → referenceResult? stmt = some val →
    val ∉ mentions before ∧ val ∉ stmt.operands ∧
      ∀ (other : BlockId) (block' : Block), other ≠ id → body.blocks[other]? = some block' → val ∉ mentions block'.statements
  untested : ∀ (id : BlockId) (block : Block), body.blocks[id]? = some block → ∀ cond ∈ block.terminator.condition?,
    cond ∉ referenceValues body
  writtenOnce : ∀ val ∈ body.temporaries, val ∉ referenceValues body → ((bodyStatements body).filterMap Statement.written?).count val ≤ 1

theorem SetBeforeUse.of_ordered {body : Body} {pool : Table Literal} (hsn : body.Sound pool) (h : body.Ordered) : SetBeforeUse body := by
  have hall := h.sequenced_bodyStatements
  refine ⟨fun val hv => ?_, fun val hv => ?_, ?_, ?_, fun val hv hp => ?_⟩
  · obtain ⟨stmt, hmem, hst⟩ := List.mem_filterMap.mp hv
    obtain ⟨id, block, hb, hs⟩ := mem_bodyStatements.mp hmem
    refine hsn.mem_temporaries_iff.mpr ⟨hall.le_of_mem_references hv, ?_⟩
    exact (hsn.statements id block hb stmt hs).values_lt val (mem_values_of_referenceResult? hst)
  · refine le_antisymm hall.count_result_le_one (List.one_le_count_iff.mpr ?_)
    obtain ⟨stmt, hmem, hst⟩ := List.mem_filterMap.mp hv
    exact List.mem_filterMap.mpr ⟨stmt, hmem, Statement.result?_of_reference hst⟩
  · intro id block before after stmt val hb hsp hr
    have hsq := h.sequenced id
    rw [Body.partAt_eq hb] at hsq
    obtain ⟨hge, hnew, hop⟩ := (hsq before stmt after hsp).result val (Statement.result?_of_reference hr)
    refine ⟨hnew, hop, fun other block' hne ho hmem => ?_⟩
    have ha := h.apart id other hne.symm
    rw [Body.partAt_eq hb, Body.partAt_eq ho] at ha
    have hown : val ∈ mentions block.statements := by
      refine mem_mentions_of_written ?_ (Statement.written?_of_result? (Statement.result?_of_reference hr))
      simp [hsp]
    exact absurd (ha val hown hmem) (Nat.not_lt.mpr hge)
  · intro id block hb cond hc hmem
    obtain ⟨stmt, hst, hv⟩ := List.mem_filterMap.mp hmem
    obtain ⟨other, block', ho, hs⟩ := mem_bodyStatements.mp hst
    refine h.tests id block hb cond hc other ?_
    rw [Body.partAt_eq ho]
    exact List.mem_filterMap.mpr ⟨stmt, hs, hv⟩
  · exact hall.count_written_le_one (hsn.mem_temporaries_iff.mp hv).1 hp

/-- Whatever is lowered, and whether blocks are merged or not: an address is received once, in a temporary of its own, before all
that mentions the temporary and in the same block. Temporaries that receive no address are written once at most. -/
theorem setBeforeUse_lowerProgram (source : Source.Program) (diagnostics after : Diagnostics) (lowered program : Flow.Program)
    (hlower : Lower.lowerProgram source diagnostics = .ok (lowered, after))
    (hprogram : program = lowered ∨ lowered.merge = .ok program) (id : SubroutineId) (subroutine : Subroutine) (body : Body)
    (hid : program.subroutines[id]? = some subroutine) (hbody : subroutine.kind = .defined body) : SetBeforeUse body := by
  have hsound := Lower.wellFormed_of_lowerProgram hlower hprogram
  exact .of_ordered (hsound.bodies id subroutine body hid hbody).toSound
    (Lower.ordered_of_lowerProgram hlower hprogram id subroutine body hid hbody)

/-- A function that counts an element up while it copies it into an element of an element, and then assigns to a variable that it
does not have. -/
def shelving : Source.Program where
  files := []
  types := ⟨[.function [1, 1] 1, .dynamic]⟩
  functions := [⟨⟨"shelve", .unknown⟩, 0, .internal, false,
      .defined [⟨0, ⟨"shelf", .unknown⟩, 1⟩, ⟨1, ⟨"place", .unknown⟩, 1⟩] [] (.block .unknown [
        .expression .unknown (.assign ⟨0, 1, .unknown⟩
          (.index ⟨1, 1, .unknown⟩ (.index ⟨2, 1, .unknown⟩ (.variableRef ⟨3, 1, .unknown⟩ 0) (.variableRef ⟨4, 1, .unknown⟩ 1))
            (.variableRef ⟨5, 1, .unknown⟩ 1))
          (.count ⟨6, 1, .unknown⟩ .increment .after
            (.index ⟨7, 1, .unknown⟩ (.variableRef ⟨8, 1, .unknown⟩ 0) (.variableRef ⟨9, 1, .unknown⟩ 1)))),
        .expression .unknown (.assign ⟨10, 1, .unknown⟩ (.variableRef ⟨11, 1, .unknown⟩ 5) (.variableRef ⟨12, 1, .unknown⟩ 0))])⟩]
  classes := []
  entry := none

/-- With its blocks merged, the function receives three addresses. -/
theorem setBeforeUse_lowerProgram_shelving :
    ∃ lowered after program subroutine body, Lower.lowerProgram shelving [] = .ok (lowered, after) ∧ after.length = 1 ∧
      lowered.merge = .ok program ∧ program.subroutines[0]? = some subroutine ∧ subroutine.kind = .defined body ∧
      referenceValues body = [3, 4, 5] ∧ SetBeforeUse body := by
  have hview : (do
      let result ← Lower.lowerProgram shelving []
      let program ← result.1.merge
      return (result.2.length, program.subroutines[0]?.bind fun subroutine => subroutine.body?.map referenceValues)) =
      .ok (1, some [3, 4, 5]) := by
    decide +kernel
  obtain ⟨⟨lowered, after⟩, hlower, hrest⟩ := of_bind_eq_ok hview
  obtain ⟨program, hmerge, hseen⟩ := of_bind_eq_ok hrest
  obtain ⟨hlength, hseen⟩ := ok_pair_inj hseen
  obtain ⟨subroutine, hid, hseen⟩ := Option.bind_eq_some_iff.mp hseen
  obtain ⟨body, hbody, hreferences⟩ := Option.map_eq_some_iff.mp hseen
  have hkind : subroutine.kind = .defined body := by
    cases hkind : subroutine.kind <;> simp_all [Flow.Subroutine.body?]
  exact ⟨lowered, after, program, subroutine, body, hlower, hlength, hmerge, hid, hkind, hreferences,
    setBeforeUse_lowerProgram shelving [] after lowered program hlower (Or.inr hmerge) 0 subroutine body hid hkind⟩

end TagAsm.Select
