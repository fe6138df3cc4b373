import TagAsm.Proofs.LineLabels

/-!
# What a step asks for and reports

The names that selection hands out depend on what was selected before. What a step asks for and what it reports need not: two
steps are in parallel (`SelectM.Parallel`) if they have the same effect, each on whatever was kept. Here are the rules for that, and
for the simpler cases: steps that always have a result, and steps without effect.
-/

namespace TagAsm.Select

open Asm Abi SelectM List
open TagAsm.Flow (SubroutineId)

/-! ## Effects -/

/-- A piece of work, by what it is about. -/
inductive Task where
  | subroutine (id : SubroutineId)
  | initializer (ty : TypeId)
  deriving DecidableEq, Repr

/-- What a piece of work is about. -/
def Work.task : Work → Task
  | .subroutine id => .subroutine id
  | .initializer ty _ => .initializer ty

/-- All that was asked for. -/
def Selection.asked (kept : Selection) : List Task :=
  kept.symbols.methods.map Task.subroutine ++ kept.symbols.initializers.map fun entry => .initializer entry.1

/-- What is asked for, and what is reported. -/
structure Effect where
  tasks : List Task
  errors : Diagnostics

/-- Nothing is asked for, and nothing is reported. -/
def Effect.none : Effect := ⟨[], []⟩

instance : Append Effect := ⟨fun first rest => ⟨first.tasks ++ rest.tasks, first.errors ++ rest.errors⟩⟩

/-- With this effect what was kept before becomes what is kept after. -/
structure Effect.Takes (effect : Effect) (before after : Selection) : Prop where
  subroutines_eq : after.symbols.subroutines = before.symbols.subroutines
  asked : ∀ task, task ∈ after.asked ↔ task ∈ before.asked ∨ task ∈ effect.tasks
  errors : ∃ added, after.diagnostics = before.diagnostics ++ added ∧ added.Perm effect.errors

namespace Effect.Takes

variable {effect first rest : Effect} {before mid after : Selection}

/-- Nothing changes that an effect is about. -/
theorem of_eq (hs : after.symbols.subroutines = before.symbols.subroutines) (hm : after.symbols.methods = before.symbols.methods)
    (hi : after.symbols.initializers = before.symbols.initializers)
    (hd : after.diagnostics = before.diagnostics) : none.Takes before after := by
  refine ⟨hs, fun task => ?_, [], by simp [hd], .refl _⟩
  rw [Selection.asked, hm, hi]
  exact (or_iff_left not_mem_nil).symm

/-- A method is asked for, unless it was before. -/
theorem method (id : SubroutineId) (hs : after.symbols = (before.symbols.referenceMethod id).2)
    (hd : after.diagnostics = before.diagnostics) : Takes ⟨[.subroutine id], []⟩ before after := by
  unfold SymbolTable.referenceMethod at hs
  split at hs
  · rename_i hmem
    refine ⟨by rw [hs], fun task => ?_, [], by simp [hd], .refl _⟩
    have ha : Task.subroutine id ∈ before.asked := mem_append_left _ (mem_map.mpr ⟨id, hmem, rfl⟩)
    rw [Selection.asked, hs, mem_singleton]
    refine ⟨Or.inl, fun h => h.elim (fun h => h) ?_⟩
    rintro rfl
    exact ha
  · refine ⟨by rw [hs], fun task => ?_, [], by simp [hd], .refl _⟩
    simp only [Selection.asked, hs, map_append, mem_append, map_cons, map_nil]
    exact or_right_comm

/-- An initializer is asked for, unless it was before. -/
theorem initializer {prog : Flow.Program} {ty : TypeId} {found : String × Bool}
    (hs : before.symbols.initializer prog ty = .ok (found, after.symbols))
    (hd : after.diagnostics = before.diagnostics) : Effect.Takes ⟨[.initializer ty], []⟩ before after := by
  unfold SymbolTable.initializer at hs
  split at hs
  · rename_i name hn
    obtain ⟨-, hsm⟩ := ok_pair_inj hs
    obtain ⟨entries, entries', heq, -⟩ := lookup_eq_some_iff.mp hn
    have ha : Task.initializer ty ∈ before.asked := by
      refine mem_append_right _ (mem_map.mpr ⟨(ty, name), ?_, rfl⟩)
      rw [heq]
      simp
    refine ⟨by rw [hsm], fun task => ?_, [], by simp [hd], .refl _⟩
    rw [Selection.asked, ← hsm, mem_singleton]
    refine ⟨Or.inl, fun h => h.elim (fun h => h) ?_⟩
    rintro rfl
    exact ha
  · obtain ⟨typeName, -, hr⟩ := of_bind_eq_ok hs
    obtain ⟨-, hnew⟩ := ok_pair_inj hr
    refine ⟨by rw [← hnew], fun task => ?_, [], by simp [hd], .refl _⟩
    simp only [Selection.asked, ← hnew, map_append, mem_append, map_cons, map_nil]
    exact or_assoc.symm

/-- Nothing changes what is kept. -/
theorem refl (kept : Selection) : none.Takes kept kept := of_eq rfl rfl rfl rfl

/-- Effects add up. -/
theorem trans (hf : first.Takes before mid) (hr : rest.Takes mid after) : (first ++ rest).Takes before after := by
  obtain ⟨added, ha, hp⟩ := hf.errors
  obtain ⟨more, hm, hp'⟩ := hr.errors
  refine ⟨hr.subroutines_eq.trans hf.subroutines_eq, fun task => ?_, added ++ more, ?_, hp.append hp'⟩
  · rw [hr.asked, hf.asked, or_assoc]
    exact or_congr_right mem_append.symm
  · rw [hm, ha, append_assoc]

end Effect.Takes

section

variable {α β γ δ : Type}

/-! ## Steps that always have a result -/

/-- Whatever was kept, there is a result, and the effect is this. -/
def SelectM.Makes (step : SelectM α) (effect : Effect) : Prop :=
  ∀ kept, ∃ result after, step.run.run kept = .ok (.ok result, after) ∧ effect.Takes kept after

namespace SelectM.Makes

/-- A result alone has no effect. -/
theorem pure (res : α) : Makes (pure res) .none := fun kept => ⟨res, kept, rfl, .refl kept⟩

/-- A step without effect, and then one with this effect. -/
theorem next {first : SelectM α} {next : α → SelectM β} {effect : Effect} (hf : Makes first .none)
    (hn : ∀ res, Makes (next res) effect) : Makes (first >>= next) effect := by
  intro kept
  obtain ⟨res, mid, hrun, ht⟩ := hf kept
  obtain ⟨last, after, hr, ht'⟩ := hn res mid
  refine ⟨last, after, ?_, ht.trans ht'⟩
  rw [ExceptT.run_bind, StateT.run_bind, hrun]
  exact hr

/-- Steps without effect, joined, have none. -/
theorem collect {step : α → SelectM (List β)} (hs : ∀ a, Makes (step a) .none) (elems : List α) : Makes (collect step elems) .none := by
  induction elems with
  | nil => exact pure []
  | cons a rest ih => exact next (hs a) fun _ => next ih fun _ => pure _

end SelectM.Makes

/-- A symbol from elsewhere is neither asked for nor reported. -/
theorem makes_addExtern (name : String) : Makes (addExtern name) .none := fun _ => ⟨_, _, rfl, .of_eq rfl rfl rfl rfl⟩

/-- Neither is a string. -/
theorem makes_stringArguments (contents : String) : Makes (stringArguments contents) .none := by
  intro kept
  obtain ⟨added, ha⟩ := exists_string_eq kept.symbols contents
  refine ⟨_, { kept with symbols := (kept.symbols.string contents).2 }, rfl, .of_eq ?_ ?_ ?_ rfl⟩
  all_goals rw [ha]

/-- To call a helper has no effect. -/
theorem makes_callHelper (frame : Frame) (helper : Helper) (args : List Argument) :
    Makes (callHelper frame helper args) .none := fun _ => ⟨_, _, rfl, .of_eq rfl rfl rfl rfl⟩

/-- An error is reported. -/
theorem makes_addError (kind : DiagnosticKind) (loc : Location) (msg : String) :
    Makes (addError kind loc msg) ⟨[], [.error .codegen kind loc msg]⟩ :=
  fun _ => ⟨_, _, rfl, rfl, fun _ => (or_iff_left not_mem_nil).symm, _, rfl, .refl _⟩

/-- A change has the effect that it takes. -/
theorem makes_change {change : Selection → Selection} {effect : Effect} (h : ∀ kept, effect.Takes kept (change kept)) :
    Makes (modify change) effect :=
  fun kept => ⟨_, _, rfl, h kept⟩

/-- An initializer is asked for. -/
theorem makes_initializerSymbol {cx : Context} {ty : TypeId} {name : String} (hn : cx.program.typeName ty = .ok name) :
    Makes (initializerSymbol cx ty) ⟨[.initializer ty], []⟩ := by
  intro kept
  obtain ⟨⟨⟨symbol, first⟩, symbols⟩, hf⟩ : ∃ found, kept.symbols.initializer cx.program ty = .ok found := by
    unfold SymbolTable.initializer
    split
    · exact ⟨_, rfl⟩
    · rw [hn]
      exact ⟨_, rfl⟩
  refine ⟨symbol, { kept with symbols, queue := if first then kept.queue ++ [.initializer ty symbol] else kept.queue }, ?_,
    .initializer hf rfl⟩
  show (SelectM.lookUp (kept.symbols.initializer cx.program ty) >>= _).run.run kept = _
  rw [hf]
  rfl

/-! ## Steps without effect -/

/-- The step asks for nothing and reports nothing, whatever its outcome. -/
def SelectM.Silent (step : SelectM α) : Prop :=
  ∀ kept out after, step.run.run kept = .ok (out, after) → Effect.none.Takes kept after

namespace SelectM.Silent

/-- What looks at nothing has no effect. -/
theorem of_fixed {step : SelectM α} (h : Fixed step) : Silent step := by
  intro kept out after hrun
  obtain ⟨fixed, hf⟩ := h
  rw [hf] at hrun
  cases fixed with
  | error fault => cases hrun
  | ok res =>
    cases hrun
    exact .refl kept

/-- What always has a result and no effect is silent. -/
theorem of_makes {step : SelectM α} (h : Makes step .none) : Silent step := by
  intro kept out after hrun
  obtain ⟨res, later, hm, ht⟩ := h kept
  obtain ⟨-, rfl⟩ := ok_pair_inj (hm.symm.trans hrun)
  exact ht

/-- Silent steps in a row are silent. -/
theorem bind {first : SelectM α} {next : α → SelectM β} (hf : Silent first) (hn : ∀ res, Silent (next res)) :
    Silent (first >>= next) := by
  intro kept out after hrun
  obtain ⟨⟨found, later⟩, hrf, hr⟩ := of_bind_eq_ok hrun
  have ht := hf kept found later hrf
  cases found with
  | error refusal =>
    cases hr
    exact ht
  | ok res => exact ht.trans (hn res later out after hr)

/-- Silent steps, joined, are silent. -/
theorem collect {step : α → SelectM (List β)} (hs : ∀ a, Silent (step a)) (elems : List α) : Silent (collect step elems) := by
  induction elems with
  | nil => exact of_fixed (.pure [])
  | cons a rest ih => exact bind (hs a) fun _ => bind ih fun _ => of_fixed (.pure _)

end SelectM.Silent

/-! ## Steps in parallel -/

/-- Outcomes of two steps with the same effect on what was kept: both are refused for the same reason, or have related results. -/
inductive Alike (effect : Effect) (post : α → β → Prop) (kept kept' : Selection) :
    Except Refusal α × Selection → Except Refusal β × Selection → Prop where
  | refused (refusal : Refusal) {after after' : Selection} (h : effect.Takes kept after) (h' : effect.Takes kept' after') :
    Alike effect post kept kept' (.error refusal, after) (.error refusal, after')
  | result {a : α} {b : β} (hpost : post a b) {after after' : Selection} (h : effect.Takes kept after)
    (h' : effect.Takes kept' after') : Alike effect post kept kept' (.ok a, after) (.ok b, after')

/-- The outcomes are alike if more was done before, with the same effect. -/
theorem Alike.trans {effect more : Effect} {post : α → β → Prop} {kept kept' mid middle' : Selection}
    {out : Except Refusal α × Selection} {outcome' : Except Refusal β × Selection}
    (h : Alike more post mid middle' out outcome') (hb : effect.Takes kept mid)
    (hb' : effect.Takes kept' middle') : Alike (effect ++ more) post kept kept' out outcome' := by
  cases h with
  | refused refusal ht ht' => exact .refused refusal (hb.trans ht) (hb'.trans ht')
  | result hp ht ht' => exact .result hp (hb.trans ht) (hb'.trans ht')

/-- Two steps that fault alike and have the same effect, each on its own selection in which the subroutines have these names. -/
def SelectM.Parallel (names : Table String) (post : α → β → Prop) (left : SelectM α) (right : SelectM β) : Prop :=
  ∀ kept kept', kept.symbols.subroutines = names → kept'.symbols.subroutines = names →
    Both (fun out outcome' => ∃ effect, Alike effect post kept kept' out outcome') (left.run.run kept) (right.run.run kept')

/-- Nothing is said of the results. -/
abbrev Whatever {α β : Type} : α → β → Prop := fun _ _ => True

namespace SelectM.Parallel

variable {names : Table String} {post : α → β → Prop} {post' : γ → δ → Prop}

/-- Two results are in parallel if they are related. -/
theorem pure {a : α} {b : β} (h : post a b) : Parallel names post (pure a) (pure b) :=
  fun kept kept' _ _ => .result ⟨.none, .result h (.refl kept) (.refl kept')⟩

/-- Two refusals are in parallel if they are the same. -/
theorem refuse (refusal : Refusal) : Parallel names post (refuse refusal) (refuse refusal) :=
  fun kept kept' _ _ => .result ⟨.none, .refused refusal (.refl kept) (.refl kept')⟩

/-- So they are whatever comes after them. -/
theorem refuse_bind {refusal : Refusal} {next : α → SelectM γ} {next' : α → SelectM δ} :
    Parallel names post' (SelectM.refuse refusal >>= next) (SelectM.refuse refusal >>= next') :=
  fun kept kept' _ _ => .result ⟨.none, .refused refusal (.refl kept) (.refl kept')⟩

variable {left : SelectM α} {right : SelectM β}

/-- Less may be said of the results. -/
theorem mono {weaker : α → β → Prop} (h : Parallel names post left right) (himp : ∀ a b, post a b → weaker a b) :
    Parallel names weaker left right := by
  intro kept kept' hk hk'
  refine (h kept kept' hk hk').mono fun out outcome' ha => ?_
  obtain ⟨effect, ha⟩ := ha
  cases ha with
  | refused refusal ht ht' => exact ⟨effect, .refused refusal ht ht'⟩
  | result hp ht ht' => exact ⟨effect, .result (himp _ _ hp) ht ht'⟩

/-- What looks at nothing is in parallel with itself. -/
theorem of_fixed {step : SelectM α} (h : Fixed step) : Parallel names (· = ·) step step := by
  intro kept kept' _ _
  obtain ⟨out, ho⟩ := h
  rw [ho, ho]
  cases out with
  | error fault => exact .fault fault
  | ok found =>
    cases found with
    | error refusal => exact .result ⟨.none, .refused refusal (.refl kept) (.refl kept')⟩
    | ok a => exact .result ⟨.none, .result rfl (.refl kept) (.refl kept')⟩

/-- Steps that always have a result are in parallel if their effects are the same. -/
theorem of_makes {effect : Effect} (h : Makes left effect) (h' : Makes right effect) : Parallel names Whatever left right := by
  intro kept kept' _ _
  obtain ⟨a, after, hrun, ht⟩ := h kept
  obtain ⟨b, after', hrun', ht'⟩ := h' kept'
  rw [hrun, hrun']
  exact .result ⟨effect, .result trivial ht ht'⟩

/-- What is required is there in both, or in none. -/
theorem require {val : Option α} {value' : Option β} (h : Option.Rel post val value') (refusal : Refusal) :
    Parallel names post (require val refusal) (require value' refusal) := by
  cases h with
  | none => exact refuse refusal
  | some h => exact pure h

/-- What is looked up is the same in both. -/
theorem lookUp (found : Except Fault α) : Parallel names (fun a b => a = b ∧ found = .ok a) (lookUp found) (lookUp found) := by
  cases found with
  | error fault => exact fun _ _ _ _ => .fault fault
  | ok val => exact pure ⟨rfl, rfl⟩

/-- What is kept has the same symbols of subroutines. -/
theorem get : Parallel names (fun kept kept' => kept.symbols.subroutines = names ∧ kept'.symbols.subroutines = names) get get :=
  fun kept kept' hk hk' => .result ⟨.none, .result ⟨hk, hk'⟩ (.refl kept) (.refl kept')⟩

/-- Parallel steps in a row are in parallel. -/
theorem bind {next : α → SelectM γ} {next' : β → SelectM δ} (h : Parallel names post left right)
    (hn : ∀ a b, post a b → Parallel names post' (next a) (next' b)) :
    Parallel names post' (left >>= next) (right >>= next') := by
  intro kept kept' hk hk'
  refine (h kept kept' hk hk').bind fun out outcome' ha => ?_
  obtain ⟨effect, ha⟩ := ha
  cases ha with
  | refused refusal ht ht' => exact .result ⟨effect, .refused refusal ht ht'⟩
  | @result a b hp after after' ht ht' =>
    have hr := hn a b hp after after' (ht.subroutines_eq.trans hk) (ht'.subroutines_eq.trans hk')
    refine hr.mono fun last last' ha => ?_
    obtain ⟨more, ha⟩ := ha
    exact ⟨effect ++ more, ha.trans ht ht'⟩

/-- A step that looks at nothing, and then steps in parallel. -/
theorem after {first : SelectM α} {next : α → SelectM γ} {next' : α → SelectM δ} (h : Fixed first)
    (hn : ∀ a, Parallel names post' (next a) (next' a)) : Parallel names post' (first >>= next) (first >>= next') :=
  bind (of_fixed h) fun a _ hab => hab ▸ hn a

/-- Steps whose results are not looked at, and then steps in parallel. -/
theorem next {next : α → SelectM γ} {next' : β → SelectM δ} (h : Parallel names Whatever left right)
    (hn : ∀ a b, Parallel names post' (next a) (next' b)) : Parallel names post' (left >>= next) (right >>= next') :=
  bind h fun a b _ => hn a b

/-- So are steps whose refusals are caught, by parallel steps. -/
theorem tryCatch {handle : Refusal → SelectM α} {handle' : Refusal → SelectM β} (h : Parallel names post left right)
    (hh : ∀ refusal, Parallel names post (handle refusal) (handle' refusal)) :
    Parallel names post (tryCatch left handle) (tryCatch right handle') := by
  intro kept kept' hk hk'
  refine (h kept kept' hk hk').bind fun out outcome' ha => ?_
  obtain ⟨effect, ha⟩ := ha
  cases ha with
  | result hp ht ht' => exact .result ⟨effect, .result hp ht ht'⟩
  | @refused refusal after after' ht ht' =>
    have hr := hh refusal after after' (ht.subroutines_eq.trans hk) (ht'.subroutines_eq.trans hk')
    refine hr.mono fun last last' ha => ?_
    obtain ⟨more, ha⟩ := ha
    exact ⟨effect ++ more, ha.trans ht ht'⟩

/-- So are parallel steps, joined. -/
theorem collect {ε : Type} {step : ε → SelectM (List α)} {step' : ε → SelectM (List β)}
    (hs : ∀ a, Parallel names Whatever (step a) (step' a)) (elems : List ε) :
    Parallel names Whatever (collect step elems) (collect step' elems) := by
  induction elems with
  | nil => exact pure trivial
  | cons a rest ih => exact next (hs a) fun _ _ => next ih fun _ _ => pure trivial

end SelectM.Parallel

end

end TagAsm.Select
