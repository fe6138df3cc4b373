import TagAsm.Proofs.Drafting
import TagAsm.Proofs.Merging

/-!
# Sound bodies

The graph of a tidy draft is a sound body, and no step of merging makes it unsound: statements move from block to block but
none is added, and the values stay what they are. Where unreachable blocks were dropped last, a sound body has its final shape
as well: it passes the check, starts with its entry and ends with its sink.
-/

namespace TagAsm.Flow.Body

/-- A body whose edges are in order and whose statements and tests mention nothing that does not exist. Its values are, in this
order, the return value, the parameters, the locals and the temporaries. -/
structure Sound (pool : Table Literal) (body : Body) : Prop where
  wired : body.Wired
  statements : ∀ (id : BlockId) (block : Block), body.blocks[id]? = some block → ∀ stmt ∈ block.statements,
    stmt.Sound body.values.length pool
  conditions : ∀ (id : BlockId) (block : Block), body.blocks[id]? = some block → ∀ cond ∈ block.terminator.condition?,
    cond < body.values.length
  values_eq : body.returnValue :: (body.parameters ++ body.locals ++ body.temporaries) = List.range body.values.length
  values_id : ∀ (id : ValueId) (val : Value), body.values[id]? = some val → val.id = id

/-- A sound body in its final shape. -/
structure WellFormed (pool : Table Literal) (body : Body) : Prop extends body.Sound pool where
  verified : body.defect? = .ok none
  entry_eq : body.entry = 0
  sink_eq : body.sink + 1 = body.blocks.length

variable {pool pool' : Table Literal} {body res : Body}

/-- With more literals a body stays sound. -/
theorem Sound.mono (h : body.Sound pool) (hp : pool <+: pool') : body.Sound pool' :=
  ⟨h.wired, fun id block hb stmt hs => (h.statements id block hb stmt hs).mono (le_refl _) hp, h.conditions, h.values_eq, h.values_id⟩

theorem WellFormed.mono (h : body.WellFormed pool) (hp : pool <+: pool') : body.WellFormed pool' :=
  ⟨h.toSound.mono hp, h.verified, h.entry_eq, h.sink_eq⟩

/-- The temporaries of a sound body are the values that it does not declare. -/
theorem Sound.mem_temporaries_iff (h : body.Sound pool) {val : ValueId} :
    val ∈ body.temporaries ↔ 1 + (body.parameters ++ body.locals).length ≤ val ∧ val < body.values.length := by
  have hs : body.temporaries = (List.range body.values.length).drop (1 + (body.parameters ++ body.locals).length) := by
    rw [← h.values_eq, ← List.cons_append, Nat.add_comm]
    exact List.drop_left.symm
  have hle : 1 + (body.parameters ++ body.locals).length ≤ body.values.length := by
    have hl := congrArg List.length h.values_eq
    rw [List.length_cons, List.length_append, List.length_range] at hl
    omega
  rw [hs, List.range_eq_range', List.drop_range', List.mem_range'_1, Nat.zero_add, Nat.mul_one, Nat.add_sub_of_le hle]

/-! ## Merging -/

theorem MergeSteps.sound (h : MergeSteps body res) (hs : body.Sound pool) : res.Sound pool := by
  have hv : res.values = body.values := by rw [h.result_eq]
  obtain ⟨hst, ht⟩ := h.upholds ⟨hs.statements, hs.conditions⟩
  rw [← hv] at hst ht
  refine ⟨h.wired hs.wired, hst, ht, ?_, ?_⟩
  · rw [h.result_eq]
    exact hs.values_eq
  · rw [hv]
    exact hs.values_id

/-- A body whose statements keep addresses in temporaries only and have the results they need. -/
def Placed (body : Body) : Prop :=
  ∀ (id : BlockId) (block : Block), body.blocks[id]? = some block → ∀ statement ∈ block.statements,
    statement.Placed (1 + (body.parameters ++ body.locals).length)

theorem MergeSteps.placed (h : MergeSteps body res) (hp : body.Placed) : res.Placed := by
  have hd : res.parameters ++ res.locals = body.parameters ++ body.locals := by rw [h.result_eq]
  rw [Placed, hd]
  have hu : body.Upholds (·.Placed (1 + (body.parameters ++ body.locals).length)) (fun _ => True) := ⟨hp, fun _ _ _ _ _ => trivial⟩
  exact (h.upholds hu).statements

/-! ## Dropping what cannot be reached -/

/-- A sound body without its unreachable blocks has its final shape. -/
theorem Pruned.wellFormed {order : List BlockId} (h : Pruned body res order) (hsn : body.Sound pool) : res.WellFormed pool := by
  have hr := MergeSteps.sound (.single (.prune h)) hsn
  refine ⟨hr, h.passes hr.wired ⟨fun id block hb stmt hs => ?_, hr.conditions⟩, h.entry_eq, h.sink_eq⟩
  exact (hr.statements id block hb stmt hs).values_lt

/-- Merging a body in its final shape succeeds, and the merged body has its final shape. -/
theorem WellFormed.merge (h : body.WellFormed pool) : ∃ removed merged, body.merge = .ok (removed, merged) ∧ merged.WellFormed pool := by
  obtain ⟨removed, merged, hm, hc⟩ := mergeRounds_eq_ok (body.blocks.length + 1) h.wired
  refine ⟨removed, merged, hm, ?_⟩
  rcases hc with rfl | ⟨before, order, hs, -, hl⟩
  · exact h
  · exact hl.wellFormed (hs.sound h.toSound)

end TagAsm.Flow.Body

namespace TagAsm.Lower

open TagAsm.Flow List

/-! ## The graph of a draft -/

/-- The variables of a function are the first values behind its return value. -/
theorem lookup_bindings_scopeOf {name : String} {declared : List Source.Variable} {id : Source.VariableId} {val : ValueId}
    (h : (scopeOf name declared).bindings.lookup id = some val) : 1 ≤ val ∧ val < 1 + declared.length := by
  obtain ⟨before, rest, hb, -⟩ := lookup_eq_some_iff.mp h
  have hmem : (id, val) ∈ (scopeOf name declared).bindings := by simp [hb]
  simp only [scopeOf, mem_reverse, mem_map, Prod.mk.injEq] at hmem
  obtain ⟨⟨decl, index⟩, hi, -, rfl⟩ := hmem
  exact ⟨(mem_zipIdx hi).1, (mem_zipIdx hi).2.1⟩

section

variable (name : String) (declared : List Source.Variable)

/-- The variables of a function, and its return value, are the first values. -/
theorem declares_scopeOf : (scopeOf name declared).Declares (1 + declared.length) :=
  ⟨fun _ _ hv => (lookup_bindings_scopeOf hv).2, Nat.lt_add_right _ Nat.zero_lt_one⟩

theorem names_scopeOf (pooled : Nat) : (scopeOf name declared).Names ⟨1 + declared.length, 0, pooled⟩ :=
  ⟨declares_scopeOf name declared, fun _ _ hv => Nat.ne_of_gt (lookup_bindings_scopeOf hv).1⟩

end

section

variable (ret : TypeId) (declared : List Source.Variable)

/-- Declared values have their positions as ids. -/
theorem declaredValues_id (id : ValueId) (val : Value) (hv : (declaredValues ret declared)[id]? = some val) : val.id = id := by
  cases id with
  | zero =>
    cases hv
    rfl
  | succ id =>
    simp only [declaredValues, declare, getElem?_cons_succ, getElem?_map, getElem?_zipIdx, Option.map_map, Option.map_eq_some_iff] at hv
    obtain ⟨decl, -, rfl⟩ := hv
    exact Nat.add_comm 1 id

theorem length_declaredValues : (declaredValues ret declared).length = 1 + declared.length := by
  simp [declaredValues, declare, Nat.add_comm]

end

/-- The pool of literals has the positions of its literals as their ids. -/
def PoolInOrder (pool : Table Literal) : Prop := ∀ (id : LiteralId) (lit : Literal), pool[id]? = some lit → lit.id = id

section

variable (ret : TypeId) (declared : List Source.Variable) (literals : Table Literal) (diags : Diagnostics)

theorem tidy_startDraft : (startDraft (declaredValues ret declared) literals diags).Tidy ⟨1 + declared.length, 0, literals.length⟩ := by
  have hl := length_declaredValues ret declared
  refine ⟨⟨le_of_eq hl.symm, Nat.lt_add_right _ Nat.zero_lt_one, declaredValues_id ret declared, ?_, ?_⟩, rfl, ?_,
    pairwise_singleton _ _, ?_, ⟨_, rfl, rfl⟩⟩
  · simp [startDraft, hl]
  · intro id lit hge hlr
    exact absurd (List.getElem?_eq_some_iff.mp hlr).1 (Nat.not_lt.mpr hge)
  · intro row hrow
    rw [mem_singleton.mp hrow]
    exact .nil
  · intro id block hb term htr
    obtain ⟨hlt, hb⟩ := List.getElem?_eq_some_iff.mp hb
    obtain rfl : id = 0 := Nat.lt_one_iff.mp hlt
    rw [← hb] at htr
    cases htr
    exact ⟨fun _ ht => (nomatch ht), fun _ hc => (nomatch hc), fun _ => rfl⟩

/-- A body is lowered to a tidy draft, and starts at one of its blocks. -/
theorem lowerToSink_tidies (name : String) (body : Source.Stmt) :
    Tidies ⟨1 + declared.length, 0, literals.length⟩ (startDraft (declaredValues ret declared) literals diags)
      (lowerToSink (scopeOf name declared) body) (fun entry draft => entry < draft.blocks.length) := by
  have hst := tidy_startDraft ret declared literals diags
  exact .bind (lowerStmt_tidies (names_scopeOf name declared _) body none _ hst fun _ hid => (nomatch hid))
    fun segment _ _ h₁ hs => .bind (connect_tidies h₁ h₁.sink_lt) fun _ _ hg h₂ _ =>
      .pure h₂ (hs.mono hg).first_lt

end

variable {start : Start} {draft : Draft} {id : BlockId} {row : DraftBlock}

/-- Closed, a block of a tidy draft still has a sound terminator. -/
theorem Draft.Tidy.terminatorSound_close (h : draft.Tidy start) (hrow : draft.blocks[id]? = some row) :
    TerminatorSound draft id row.close.terminator := by
  cases ht : row.terminator with
  | some term =>
    rw [DraftBlock.close, ht]
    exact h.terminators id row hrow term ht
  | none =>
    rw [DraftBlock.close, ht]
    exact terminatorSound_jump h.sink_lt

/-- The graph of a tidy draft has its edges in order. -/
theorem Draft.Tidy.wired (h : draft.Tidy start) {graph : Body} (hbs : graph.blocks = draft.blocks.map DraftBlock.close)
    (hs : graph.sink = Draft.sink) (he : graph.entry < draft.blocks.length) : graph.Wired := by
  have hl : graph.blocks.length = draft.blocks.length := by rw [hbs, length_map]
  have hb : ∀ (id : BlockId) (block : Block), graph.blocks[id]? = some block →
      ∃ row, draft.blocks[id]? = some row ∧ row.close = block := by
    intro id block hid
    rw [hbs, getElem?_map] at hid
    exact Option.map_eq_some_iff.mp hid
  refine ⟨hl ▸ he, hl ▸ hs ▸ h.sink_lt, ?_, ?_⟩
  · rintro src tgt ⟨block, hid, ht⟩
    obtain ⟨row, hrow, rfl⟩ := hb src block hid
    rw [hl]
    exact (h.terminatorSound_close hrow).targets_lt tgt ht
  · intro id block hid
    obtain ⟨row, hrow, rfl⟩ := hb id block hid
    rw [hs]
    refine ⟨(h.terminatorSound_close hrow).leaves, ?_⟩
    rintro rfl
    obtain ⟨found, hf, htr⟩ := h.sink
    rw [hrow] at hf
    rw [DraftBlock.close, Option.some.inj hf, htr]
    rfl

/-- What a block of a tidy draft holds is sound. -/
theorem Draft.Tidy.codeSound (h : draft.Tidy start) (hrow : draft.blocks[id]? = some row) : CodeSound start draft row.statements :=
  h.rows _ (mem_map.mpr ⟨row, mem_of_getElem? hrow, rfl⟩)

/-- The return value, the parameters, the locals and the temporaries, one behind the other. -/
theorem range'_parts (params locals : Nat) {vals : Nat} (h : 1 + (params + locals) ≤ vals) :
    0 :: (range' 1 params ++ range' (1 + params) locals ++
      range' (1 + (params + locals)) (vals - (1 + (params + locals)))) = range vals := by
  obtain ⟨temporaries, rfl⟩ := Nat.exists_eq_add_of_le h
  rw [Nat.add_sub_cancel_left, range'_append_1, range'_append_1, range_eq_range', Nat.add_assoc 1, Nat.add_comm 1, range'_succ]

variable (name : String) (ret : TypeId) (params locals : List Source.Variable) (body : Source.Stmt)

section

variable (literals : Table Literal) (diags : Diagnostics)

/-- The body that a draft becomes is sound, for the pool of literals that the draft has. -/
theorem sound_draftBody : (draftBody name ret params locals body literals diags).1.Sound
      (draftBody name ret params locals body literals diags).2.literals := by
  obtain ⟨-, ht, he⟩ := lowerToSink_tidies ret (params ++ locals) literals diags name body
  refine ⟨ht.wired rfl rfl he, ?_, ?_, ?_, ht.values_id⟩
  · intro id block hb stmt hs
    obtain ⟨row, hrow, rfl⟩ := Option.map_eq_some_iff.mp ((getElem?_map ..).symm.trans hb)
    exact (ht.codeSound hrow).sound stmt hs
  · intro id block hb cond hc
    obtain ⟨row, hrow, rfl⟩ := Option.map_eq_some_iff.mp ((getElem?_map ..).symm.trans hb)
    exact ((ht.terminatorSound_close hrow).testable cond hc).lt
  · have ho := range'_parts params.length locals.length (length_append ▸ ht.declared_le)
    rw [← length_append, ← ht.temporaries_eq] at ho
    exact ho

/-- In the body that a draft becomes, statements keep addresses in temporaries only and have the results they need. -/
theorem placed_draftBody : (draftBody name ret params locals body literals diags).1.Placed := by
  obtain ⟨-, ht, -⟩ := lowerToSink_tidies ret (params ++ locals) literals diags name body
  intro id block hb stmt hs
  obtain ⟨row, hrow, rfl⟩ := Option.map_eq_some_iff.mp ((getElem?_map ..).symm.trans hb)
  have hp := (ht.codeSound hrow).placed stmt hs
  show Statement.Placed (1 + (range' 1 params.length ++ range' (1 + params.length) locals.length).length) stmt
  simpa using hp

/-- All that a draft reports are errors of its stage. -/
theorem diagnostics_draftBody : Diagnostics.Adds .lowering diags (draftBody name ret params locals body literals diags).2.diagnostics :=
  (lowerToSink_tidies ret (params ++ locals) literals diags name body).goes.diagnostics

end

/-- The draft adds to the pool of literals and keeps it in order. -/
theorem pool_draftBody {literals : Table Literal} (diags : Diagnostics) (hp : PoolInOrder literals) :
    literals <+: (draftBody name ret params locals body literals diags).2.literals ∧
      PoolInOrder (draftBody name ret params locals body literals diags).2.literals := by
  obtain ⟨hg, ht, -⟩ := lowerToSink_tidies ret (params ++ locals) literals diags name body
  refine ⟨hg.literals, fun id lit hl => ?_⟩
  rcases Nat.lt_or_ge id literals.length with hlt | hge
  · obtain ⟨rest, hr⟩ := hg.literals
    refine hp id lit ?_
    rw [← hl]
    exact ((congrArg (·[id]?) hr).symm.trans (getElem?_append_left hlt)).symm
  · exact ht.literals_id id lit hge hl

end TagAsm.Lower
