import TagAsm.Compile
import TagAsm.Proofs.ControlFlow

/-!
# Compiled programs are well formed

All bodies of a program share one pool of literals, which grows while the functions are lowered one after the other. What is
sound for a pool stays so while the pool grows, so at the end every body is in its final shape, for the pool of the whole
program. Merging blocks keeps that.
-/

namespace TagAsm

open TagAsm.Flow

/-- Subroutines whose bodies are in their final shape, and a pool of literals in order. -/
structure SubroutinesWellFormed (subroutines : Table Subroutine) (pool : Table Literal) : Prop where
  literals_id : Lower.PoolInOrder pool
  bodies : ∀ (id : SubroutineId) (sub : Subroutine) (body : Body), subroutines[id]? = some sub →
    sub.kind = .defined body → body.WellFormed pool

/-- A program whose bodies are in their final shape, for its pool of literals. -/
def Flow.Program.WellFormed (prog : Flow.Program) : Prop := SubroutinesWellFormed prog.subroutines prog.literals

/-! ## Lowering -/

namespace Lower

section

variable {prog : Source.Program} {fn : Source.Function} {params locals : List Source.Variable} {body : Source.Stmt}
  {lowering after : Lowering} {graph : Body} (h : lowerBody prog fn params locals body lowering = .ok (graph, after))
include h

/-- A function is lowered to what pruning leaves of its draft. -/
theorem lowerBody_pruned : ∃ ret draft last order,
    draftBody fn.symbol.name ret params locals body lowering.literals lowering.diagnostics = (draft, last) ∧
      Body.Pruned draft graph order ∧
      after = { lowering with literals := last.literals, diagnostics := last.diagnostics } := by
  obtain ⟨ret, -, hr⟩ := of_bind_eq_ok h
  obtain ⟨pruned, hp, hrs⟩ := of_bind_eq_ok hr
  obtain ⟨rfl, rfl⟩ := ok_pair_inj hrs
  obtain ⟨res, order, hok, hpr⟩ := Body.prune_eq_ok (sound_draftBody _ _ _ _ _ _ _).wired
  obtain rfl : res = pruned := Except.ok.inj (hok.symm.trans hp)
  exact ⟨ret, _, _, order, rfl, hpr, rfl⟩

/-- A function is lowered to a body in its final shape. The pool grows and stays in order. -/
theorem lowerBody_wellFormed (hp : PoolInOrder lowering.literals) :
    graph.WellFormed after.literals ∧ PoolInOrder after.literals ∧ lowering.literals <+: after.literals ∧
      after.subroutines = lowering.subroutines := by
  obtain ⟨ret, _, _, order, ⟨⟩, hpr, rfl⟩ := lowerBody_pruned h
  obtain ⟨hg, ho⟩ := pool_draftBody fn.symbol.name ret params locals body lowering.diagnostics hp
  exact ⟨hpr.wellFormed (sound_draftBody _ _ _ _ _ _ _), ho, hg, rfl⟩

end

/-- Lowering one more function keeps all bodies in their final shape. -/
theorem lowerFunction_wellFormed (prog : Source.Program) (lowering : Lowering)
    (entry : Source.FunctionId × Source.Function) (after : Lowering)
    (hl : SubroutinesWellFormed lowering.subroutines lowering.literals)
    (h : lowerFunction prog lowering entry = .ok after) : SubroutinesWellFormed after.subroutines after.literals := by
  obtain ⟨⟨kind, low⟩, hk, hr⟩ := of_bind_eq_ok h
  -- whatever the function is, the pool grows, and if it has a body then that is in its final shape
  have hlw : low.subroutines = lowering.subroutines ∧ lowering.literals <+: low.literals ∧
      PoolInOrder low.literals ∧ ∀ body, kind = .defined body → body.WellFormed low.literals := by
    unfold lowerKind at hk
    split at hk
    · obtain ⟨⟨graph, last⟩, hb, hdn⟩ := of_bind_eq_ok hk
      cases hdn
      obtain ⟨hgr, ho, hg, hs⟩ := lowerBody_wellFormed hb hl.literals_id
      exact ⟨hs, hg, ho, fun body heq => SubroutineKind.defined.inj heq ▸ hgr⟩
    all_goals
      cases hk
      exact ⟨rfl, List.prefix_refl _, hl.literals_id, fun _ heq => by cases heq⟩
  obtain ⟨hs, hg, ho, hb⟩ := hlw
  cases hr
  refine ⟨ho, fun id sub body hid hd => ?_⟩
  rcases Nat.lt_or_ge id low.subroutines.length with hlt | hge
  · rw [Table.getElem?_push_of_lt hlt, hs] at hid
    exact (hl.bodies id sub body hid hd).mono hg
  · rw [Table.push, List.getElem?_append_right hge] at hid
    obtain rfl := List.mem_singleton.mp (List.mem_of_getElem? hid)
    exact hb body hd

theorem lowerProgram_wellFormed {prog : Source.Program} {diags after : Diagnostics} {low : Program}
    (h : lowerProgram prog diags = .ok (low, after)) : low.WellFormed := by
  obtain ⟨lowering, hf, hr⟩ := of_bind_eq_ok h
  obtain ⟨⟨classes, last⟩, -, hrs⟩ := of_bind_eq_ok hr
  obtain ⟨rfl, -⟩ := ok_pair_inj hrs
  have he : SubroutinesWellFormed [] [] := ⟨fun _ _ hid => (nomatch hid), fun _ _ _ hid => (nomatch hid)⟩
  exact foldlM_keeps (fun lowering => SubroutinesWellFormed lowering.subroutines lowering.literals)
    (fun lowering entry after => lowerFunction_wellFormed prog lowering entry after) _ he hf

end Lower

/-! ## Merging -/

/-- Merging the blocks of a subroutine keeps its body in its final shape. -/
theorem Flow.Subroutine.merge_wellFormed {sub merged : Subroutine} {pool : Table Literal}
    (hb : ∀ body, sub.kind = .defined body → body.WellFormed pool) (h : sub.merge = .ok merged) :
    ∀ body, merged.kind = .defined body → body.WellFormed pool := by
  unfold merge at h
  split at h
  · rename_i body hk
    obtain ⟨removed, res, hm, hr⟩ := (hb body hk).merge
    rw [hm] at h
    cases h
    exact fun body heq => SubroutineKind.defined.inj heq ▸ hr
  · cases h
    exact hb
  · cases h
    exact hb

variable {prog : Flow.Program}

/-- Merging the blocks of a well-formed program leaves a well-formed program. -/
theorem Flow.Program.WellFormed.merge {merged : Program} (hp : prog.WellFormed) (h : prog.merge = .ok merged) : merged.WellFormed := by
  obtain ⟨subroutines, hmap, hr⟩ := of_bind_eq_ok h
  cases hr
  refine ⟨hp.literals_id, fun id sub body hid hd => ?_⟩
  have hall := (mapM_eq_ok_iff_forall₂ Subroutine.merge prog.subroutines subroutines).mp hmap
  obtain ⟨before, hb, hm⟩ := getElem?_of_forall₂ hall.flip hid
  exact Subroutine.merge_wellFormed (fun body => hp.bodies id before body hb) hm body hd

/-! ## Compilations -/

section

variable {ε σ α β : Type} {state after : σ}

/-- What came out of two steps in a row, each of which may fail, came out of the second. -/
theorem exists_of_run_bind {first : ExceptT ε (StateT σ (Except Fault)) α} {next : α → ExceptT ε (StateT σ (Except Fault)) β}
    {res : β} (h : (first >>= next).run.run state = .ok (.ok res, after)) :
    ∃ mid later, first.run.run state = .ok (.ok mid, later) ∧ (next mid).run.run later = .ok (.ok res, after) := by
  obtain ⟨⟨out, later⟩, hf, hn⟩ := of_bind_eq_ok h
  cases out with
  | error failure => exact nomatch hn
  | ok mid => exact ⟨mid, later, hf, hn⟩

end

variable {diags after : Diagnostics} {options : Options}

/-- Whether a compilation halts at a checkpoint. -/
def Options.halts (options : Options) (diags : Diagnostics) : Bool := diags.hasErrors && !options.ignoreErrors

/-- At a checkpoint the compilation halts or goes on. -/
theorem Compilation.run_checkpoint_bind (stage : Stage) (next : Unit → Compilation α) :
    (checkpoint options stage >>= next).run.run diags =
      if options.halts diags then .ok (.error (.halted stage diags), []) else (next ()).run.run diags := by
  show ((if options.halts diags then do set ([] : Diagnostics); throw (.halted stage diags) else pure () :
    Compilation Unit) >>= next).run.run diags = _
  split
  · rfl
  · rfl

theorem Compilation.run_stage_bind (run : Diagnostics → Except Fault (α × Diagnostics)) (next : α → Compilation β) :
    (stage run >>= next).run.run diags = run diags >>= fun res => (next res.1).run.run res.2 := by
  show ((run diags >>= _) >>= _) = _
  cases run diags with
  | error fault => rfl
  | ok res => rfl

/-- The program that code is selected for: the lowered one, with its blocks merged if that is wanted. -/
def Options.prepare (options : Options) (low : Flow.Program) : Except Fault Flow.Program :=
  if options.optimize then low.merge else .ok low

theorem Options.eq_of_prepare {low : Program} (h : options.prepare low = .ok prog) : prog = low ∨ low.merge = .ok prog := by
  unfold prepare at h
  split at h
  · exact .inr h
  · exact .inl (Except.ok.inj h).symm

variable {src : Source.Program}

/-- Merging reports nothing, so before selection the compilation can halt after lowering, and nowhere else. -/
theorem run_compileToFlow_bind (next : Program → Compilation α) : (compileToFlow options src >>= next).run.run diags =
      Lower.lowerProgram src diags >>= fun low =>
        if options.halts low.2 then .ok (.error (.halted .lowering low.2), [])
        else options.prepare low.1 >>= fun prog => (next prog).run.run low.2 := by
  unfold compileToFlow
  rw [bind_assoc, Compilation.run_stage_bind]
  refine bind_congr fun low => ?_
  rw [bind_assoc, Compilation.run_checkpoint_bind]
  split
  · rfl
  · rename_i hp
    unfold Options.prepare
    split
    · rw [bind_assoc, Compilation.run_stage_bind, bind_assoc]
      refine bind_congr fun merged => ?_
      show ((Compilation.checkpoint options .optimization >>= fun _ => pure merged) >>= next).run.run low.2 = _
      rw [bind_assoc, Compilation.run_checkpoint_bind, if_neg hp, pure_bind]
    · rfl

/-- What comes out of a compilation was lowered, and its blocks were merged if that was wanted. All that was reported by then
was reported by lowering. -/
theorem lowerProgram_of_compileToFlow_eq_ok (h : (compileToFlow options src).run.run diags = .ok (.ok prog, after)) :
    ∃ low, Lower.lowerProgram src diags = .ok (low, after) ∧ (prog = low ∨ low.merge = .ok prog) := by
  rw [← bind_pure (compileToFlow options src), run_compileToFlow_bind] at h
  obtain ⟨⟨low, later⟩, hl, h⟩ := of_bind_eq_ok h
  split at h
  · cases h
  · obtain ⟨res, hp, h⟩ := of_bind_eq_ok h
    cases h
    exact ⟨low, hl, Options.eq_of_prepare hp⟩

/-- A program that was lowered is well formed, whether its blocks were merged or not. -/
theorem Lower.wellFormed_of_lowerProgram {low : Program}
    (hlower : lowerProgram src diags = .ok (low, after)) (hprogram : prog = low ∨ low.merge = .ok prog) :
    prog.WellFormed := by
  have hl := lowerProgram_wellFormed hlower
  rcases hprogram with rfl | hm
  · exact hl
  · exact hl.merge hm

/-- Whatever the options, a program that comes out of lowering and merging is well formed: every body passes the check, starts
with its entry and ends with its sink, which alone leaves it; its values are numbered in order; and every literal that a
statement mentions is in the pool, where the names of members are strings. -/
theorem compileToFlow_wellFormed (options : Options) (source : Source.Program) (diagnostics after : Diagnostics)
    (program : Flow.Program) (h : (compileToFlow options source).run.run diagnostics = .ok (.ok program, after)) :
    program.WellFormed := by
  obtain ⟨lowered, hlower, hmerge⟩ := lowerProgram_of_compileToFlow_eq_ok h
  exact Lower.wellFormed_of_lowerProgram hlower hmerge

/-- The countdown comes out well formed, with its blocks merged. -/
theorem compileToFlow_wellFormed_countdown :
    ∃ prog after, (compileToFlow .standard Lower.countdown).run.run [] = .ok (.ok prog, after) ∧ prog.WellFormed :=
  ⟨_, _, rfl, compileToFlow_wellFormed .standard Lower.countdown [] _ _ rfl⟩

end TagAsm
