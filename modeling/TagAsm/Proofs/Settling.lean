import TagAsm.Proofs.Gathering

/-!
# Merging comes to an end

Rounds go on until one of them folds nothing (`Body.Settles`, which knows no bound). Every other round leaves fewer blocks, by as
many as it folded, so there is such a last round, and the bound that `Body.merge` sets is never met. A round that folds nothing
has looked at every block that can be reached, with exactly the edges between these, so what it leaves is in normal form
(`Body.Normal`), and merging it again changes nothing. What a single round does to a body that passes the check
(`Body.Shrinks`) is then carried from round to round: the check is passed, the blocks are counted, and what the blocks held is
held by rows of them.
-/

namespace TagAsm.Flow

open List MergeRound

namespace MergeRound

variable {round : MergeRound} {id tgt : BlockId} {block : Block}

/-- What keeps a block that jumps to another one where it is. -/
theorem not_foldable_of_target? (h : round.target? id = none) (hid : id ∉ round.folded) (hb : round.body.blocks[id]? = some block)
    (hj : block.terminator = .jump tgt) (hne : tgt ≠ id) (ht : tgt ∉ round.folded) :
    block.isEmpty = false ∧ round.isOnlyWay id tgt = false := by
  unfold target? at h
  rw [if_neg hid, hb] at h
  dsimp only at h
  rw [hj] at h
  simpa [hne, ht] using h

/-- A block that leads to another one and is not the only way there: nothing is put in front of the entry, or there is another
way. -/
theorem exists_of_not_isOnlyWay (h : round.isOnlyWay id tgt = false) (he : (id, tgt) ∈ round.edges) :
    tgt = round.body.entry ∨ ∃ other, other ≠ id ∧ (other, tgt) ∈ round.edges := by
  by_contra hnot
  rw [not_or, not_exists] at hnot
  have hs : (round.sources tgt).isEmpty = false := by
    rw [isEmpty_eq_false_iff]
    exact ne_nil_of_mem (mem_sources.mpr he)
  have hall : (round.sources tgt).all (· = id) = true := by
    rw [all_eq_true]
    intro other ho
    by_contra hne
    exact hnot.2 other ⟨by simpa using hne, mem_sources.mp ho⟩
  simp [isOnlyWay, hnot.1, hs, hall] at h

end MergeRound

namespace Body

/-- A body that passes the check, with its entry and its sink in range. -/
structure Checked (body : Body) : Prop where
  entry_lt : body.entry < body.blocks.length
  sink_lt : body.sink < body.blocks.length
  passes : body.defect? = .ok none

namespace Checked

variable {body : Body}

variable (h : body.Checked)
include h

theorem wired : body.Wired := wired_of_defect?_eq_none h.entry_lt h.sink_lt h.passes

/-- Every block but the sink can be reached. -/
theorem reaches : ∀ id < body.blocks.length, id = body.sink ∨ Reaches body.blocks body.entry id :=
  ((defect?_eq_ok_none_iff h.entry_lt).mp h.passes).2

theorem upholds : body.Upholds (fun stmt => ∀ val ∈ stmt.values, val < body.values.length) (· < body.values.length) := by
  have hf := ((defect?_eq_ok_none_iff h.entry_lt).mp h.passes).1
  refine ⟨fun id block hb stmt hs val hv => ?_, fun id block hb cond hc => ?_⟩
  · exact (hf id block hb).values val (mem_append_left _ (mem_flatMap.mpr ⟨stmt, hs, hv⟩))
  · exact (hf id block hb).values cond (mem_append_right _ (Option.mem_toList.mpr hc))

/-- Without the blocks that folding put out of reach, a body passes the check as before. -/
theorem of_pruned {before pruned : Body} {order : List BlockId} (hs : MergeSteps body before)
    (hp : Pruned before pruned order) : pruned.Checked := by
  have hall : MergeSteps body pruned := hs.tail (.prune hp)
  have hw := hall.wired h.wired
  have hv : pruned.values = body.values := by rw [hall.result_eq]
  refine ⟨hw.entry_lt, hw.sink_lt, hp.passes hw ?_⟩
  rw [hv]
  exact hall.upholds h.upholds

end Checked

/-! ## A round that folds nothing -/

/-- Nothing is left to fold: a block that can be reached and ends in a jump goes round in a circle by itself, or it holds
something and is not the only way to where it goes. -/
def Normal (body : Body) : Prop :=
  ∀ (id : BlockId) (block : Block) (tgt : BlockId), Reaches body.blocks body.entry id → body.blocks[id]? = some block →
    block.terminator = .jump tgt → tgt = id ∨ block.isEmpty = false ∧ (tgt = body.entry ∨
        ∃ other, other ≠ id ∧ Reaches body.blocks body.entry other ∧ Leads body.blocks other tgt)

variable {body : Body} {round : MergeRound}

/-- A round that folds nothing leaves the body as it is, and found it in normal form: what would keep a block from being folded
later in a round is that others were folded before. -/
theorem Wired.normal (hw : body.Wired) (hr : body.mergeRound = .ok round) (hn : round.folded = []) : round.body = body ∧ body.Normal := by
  obtain ⟨ids, heq, hmem, hsn⟩ := mergeRound_eq_foldl hw
  cases heq.symm.trans hr
  obtain ⟨hsm, ht⟩ := eq_of_folded_eq_nil ids _ hn
  refine ⟨by rw [hsm], fun id block tgt hp hb hj => ?_⟩
  have hid := (hmem id).mpr hp
  by_cases hs : tgt = id
  · exact Or.inl hs
  have hk := not_foldable_of_target? (ht id hid) not_mem_nil hb hj hs not_mem_nil
  refine Or.inr ⟨hk.1, ?_⟩
  rcases exists_of_not_isOnlyWay hk.2 (mem_edgesFrom.mpr ⟨hid, block, hb, by simp [hj]⟩) with
    hen | ⟨other, ho, he⟩
  · exact Or.inl hen
  · obtain ⟨hls, hl⟩ := mem_edgesFrom.mp he
    exact Or.inr ⟨other, ho, (hmem other).mp hls, hl⟩

/-! ## A round that folds something -/

/-- What a round, in which `folded` blocks are folded, leaves of a body that passes the check. -/
structure Shrinks (body next : Body) (folded : Nat) : Prop where
  checked : next.Checked
  gathered : ∃ rows, Gathered body next rows
  count : folded + next.blocks.length = body.blocks.length
  entry_eq : next.entry = 0
  sink_eq : next.sink + 1 = next.blocks.length

theorem Checked.shrinks (h : body.Checked) (hr : body.mergeRound = .ok round) :
    ∃ next, round.body.prune = .ok next ∧ Shrinks body next round.folded.length := by
  obtain ⟨ids, heq, hmem, hs⟩ := mergeRound_eq_foldl h.wired
  cases heq.symm.trans hr
  have hst := foldl_step ids ids _ hs fun _ hid => hid
  -- the invariants hold before the round, and looking at a block keeps them
  have ht : (MergeRound.mk body (body.edgesFrom ids) []).Thins body ids :=
    ⟨h.wired, rfl, rfl, nodup_nil, forall_mem_nil _, fun id hid _ => (hmem id).mp hid⟩
  have hg : (MergeRound.mk body (body.edgesFrom ids) []).Gathers body ids ([·]) :=
    ⟨fun _ id => (flatMap_singleton _ id).symm, .of_eq (flatMap_singleton' _), forall_mem_nil _, fun _ _ => ⟨[], rfl, fun _ => rfl⟩⟩
  have hr : ∀ (round : MergeRound), (round.Sane ids ∧ round.Thins body ids ∧ ∃ rows, round.Gathers body ids rows) → ∀ id ∈ ids,
      (round.step id).Sane ids ∧ (round.step id).Thins body ids ∧ ∃ rows, (round.step id).Gathers body ids rows := by
    rintro round ⟨hs, ht, rows, hg⟩ id hid
    exact ⟨hs.step hid, ht.step hs hid, hg.step hs ht hid⟩
  obtain ⟨hs, ht, rows, hg⟩ := foldlRecOn ids step ⟨hs, ht, _, hg⟩ hr
  have hall : ∀ id < body.blocks.length, id = body.sink ∨ id ∈ ids := fun id hlt => (h.reaches id hlt).imp_right (hmem id).mpr
  obtain ⟨next, order, hpr, hp⟩ := prune_eq_ok ht.wired
  exact ⟨next, hpr, h.of_pruned hst hp, ⟨_, hg.gathered ht hs hmem hall hp⟩, ht.count hs hall hp, hp.entry_eq, hp.sink_eq⟩

/-! ## All rounds -/

/-- Rounds go on until one of them folds nothing. In all of them `removed` blocks are folded, and `merged` is left. -/
inductive Settles : Body → Nat → Body → Prop where
  | done {body : Body} {round : MergeRound} (hround : body.mergeRound = .ok round) (hnone : round.folded = []) : Settles body 0 round.body
  | again {body next merged : Body} {round : MergeRound} {removed : Nat} (hround : body.mergeRound = .ok round)
    (hsome : round.folded ≠ []) (hprune : round.body.prune = .ok next) (hrest : Settles next removed merged) :
    Settles body (round.folded.length + removed) merged

/-- There is a last round: each one before it leaves fewer blocks. -/
theorem Checked.exists_settles (h : body.Checked) : ∃ removed merged, Settles body removed merged := by
  induction hsz : body.blocks.length using Nat.strong_induction_on generalizing body with
  | _ size ih =>
    obtain ⟨round, hr, -⟩ := mergeRound_eq_ok h.wired
    by_cases hn : round.folded = []
    · exact ⟨0, round.body, .done hr hn⟩
    · obtain ⟨next, hp, hs⟩ := h.shrinks hr
      have hpos := length_pos_of_ne_nil hn
      have hc := hs.count
      obtain ⟨removed, merged, hrs⟩ := ih next.blocks.length (by omega) hs.checked rfl
      exact ⟨_, merged, .again hr hn hp hrs⟩

/-- What holds where nothing is left to fold, and is carried back over a round, holds of all rounds together. -/
theorem Settles.carry {motive : Body → Nat → Body → Prop}
    (hd : ∀ body, body.Checked → Settles body 0 body → body.Normal → motive body 0 body)
    (ha : ∀ body next merged folded removed, 0 < folded → body.Checked → Shrinks body next folded →
      motive next removed merged → motive body (folded + removed) merged) {merged : Body} {removed : Nat}
    (h : Settles body removed merged) (hbody : body.Checked) : motive body removed merged := by
  induction h with
  | @done body round hr hn =>
    obtain ⟨hsm, hnr⟩ := hbody.wired.normal hr hn
    have hs := done hr hn
    rw [hsm] at hs ⊢
    exact hd body hbody hs hnr
  | @again body next merged round removed hr hso hp _ ih =>
    obtain ⟨found, hf, hsh⟩ := hbody.shrinks hr
    obtain rfl := Except.ok.inj (hf.symm.trans hp)
    exact ha body found merged _ removed (length_pos_of_ne_nil hso) hbody hsh (ih hsh.checked)

namespace Settles

variable {body merged : Body} {removed : Nat}

section

variable (h : Settles body removed merged) (hbody : body.Checked)
include h hbody

/-- More rounds than blocks are enough to come to the last one. -/
theorem mergeRounds_eq {rounds : Nat} (hrs : body.blocks.length < rounds) : mergeRounds rounds body = .ok (removed, merged) := by
  induction h generalizing rounds with
  | @done body round hr hn =>
    obtain ⟨rounds, rfl⟩ := Nat.exists_eq_succ_of_ne_zero (Nat.ne_zero_of_lt hrs)
    rw [mergeRounds, hr]
    simp [bind, Except.bind, hn, pure, Except.pure]
  | @again body next merged round removed hr hsm hp _ ih =>
    obtain ⟨rounds, rfl⟩ := Nat.exists_eq_succ_of_ne_zero (Nat.ne_zero_of_lt hrs)
    obtain ⟨found, hf, hs⟩ := hbody.shrinks hr
    obtain rfl := Except.ok.inj (hf.symm.trans hp)
    have hpos := length_pos_of_ne_nil hsm
    have hc := hs.count
    have hrt : mergeRounds rounds found = .ok (removed, merged) := ih hs.checked (by omega)
    rw [mergeRounds, hr]
    simp only [bind, Except.bind, List.isEmpty_iff, hsm, if_false, hp, hrt]
    rfl

theorem merge_eq : body.merge = .ok (removed, merged) := h.mergeRounds_eq hbody (Nat.lt_succ_self _)

theorem checked : merged.Checked :=
  h.carry (motive := fun _ _ merged => merged.Checked) (fun _ hbody _ _ => hbody) (fun _ _ _ _ _ _ _ _ ih => ih) hbody

/-- What is left is in normal form, and the next round would be the last one again. -/
theorem normal : merged.Normal ∧ Settles merged 0 merged := h.carry (motive := fun _ _ merged => merged.Normal ∧ Settles merged 0 merged)
    (fun _ _ hs hn => ⟨hn, hs⟩) (fun _ _ _ _ _ _ _ _ ih => ih) hbody

end

theorem gathered (h : Settles body removed merged) (hbody : body.Checked) : ∃ rows, Gathered body merged rows := by
  refine h.carry (motive := fun body _ merged => ∃ rows, Gathered body merged rows)
    (fun body hbody _ _ => ⟨_, .refl hbody.sink_lt⟩) (fun body next merged folded removed _ _ hs ih => ?_) hbody
  obtain ⟨rows, hr⟩ := hs.gathered
  obtain ⟨others, ho⟩ := ih
  exact ⟨_, hr.trans ho⟩

/-- The blocks that were folded are those that are missing. -/
theorem count (h : Settles body removed merged) (hbody : body.Checked) : removed + merged.blocks.length = body.blocks.length := by
  refine h.carry (motive := fun body removed merged => removed + merged.blocks.length = body.blocks.length)
    (fun _ _ _ _ => Nat.zero_add _) (fun body next merged folded removed _ _ hs ih => ?_) hbody
  have hc := hs.count
  omega

/-- If anything was folded, the entry comes first and the sink last. -/
theorem shape (h : Settles body removed merged) (hbody : body.Checked) :
    if removed = 0 then merged = body else merged.entry = 0 ∧ merged.sink + 1 = merged.blocks.length := by
  refine h.carry (motive := fun body removed merged =>
      if removed = 0 then merged = body else merged.entry = 0 ∧ merged.sink + 1 = merged.blocks.length)
    (fun _ _ _ _ => rfl) (fun body next merged folded removed hpos _ hs ih => ?_) hbody
  rw [if_neg (by omega)]
  split at ih
  · rw [ih]
    exact ⟨hs.entry_eq, hs.sink_eq⟩
  · exact ih

end Settles

/-- Merging a body that passes the check does all rounds, down to the last one. -/
theorem Checked.merge_eq_ok (h : body.Checked) : ∃ removed merged, body.merge = .ok (removed, merged) ∧ Settles body removed merged := by
  obtain ⟨removed, merged, hs⟩ := h.exists_settles
  exact ⟨removed, merged, hs.merge_eq h, hs⟩

/-- Merging the blocks of a body that passes the check comes to an end by itself, and not at its bound. What it leaves is in normal
form, and merging that once more folds nothing and leaves it as it is. -/
theorem merge_settles (body : Body) (hentry : body.entry < body.blocks.length) (hsink : body.sink < body.blocks.length)
    (hcheck : body.defect? = .ok none) :
    ∃ removed merged, body.merge = .ok (removed, merged) ∧ Settles body removed merged ∧ merged.Normal ∧
      merged.merge = .ok (0, merged) := by
  have hbody : body.Checked := ⟨hentry, hsink, hcheck⟩
  obtain ⟨removed, merged, hmerge, hsettles⟩ := hbody.merge_eq_ok
  obtain ⟨hnormal, hagain⟩ := hsettles.normal hbody
  exact ⟨removed, merged, hmerge, hsettles, hnormal, hagain.merge_eq (hsettles.checked hbody)⟩

/-- A body that never ends: from its entry, which is empty, it comes to a test; on the one side it goes round in a circle at once,
on the other side it evaluates something before. Nothing leads to its sink. -/
def stall : Body where
  returnValue := 0
  parameters := []
  locals := []
  temporaries := []
  values := [⟨0, none, 0⟩]
  blocks := [⟨[], .jump 1, []⟩, ⟨[⟨.assign 0 (.subroutine 5), .unknown⟩], .jump 2, [10]⟩,
    ⟨[⟨.assign 0 (.subroutine 6), .unknown⟩], .branch 0 3 4, [11]⟩, ⟨[], .jump 4, [12]⟩, ⟨[], .jump 4, []⟩, ⟨[], .sink, [13]⟩]
  entry := 0
  sink := 5

/-- Two blocks are folded into the one with the test. The circle stays, and so does the block in front of it. -/
theorem merge_settles_stall : stall.defect? = .ok none ∧
    ∃ merged, stall.merge = .ok (2, merged) ∧ Settles stall 2 merged ∧ merged.Normal ∧ merged.merge = .ok (0, merged) := by
  refine ⟨rfl, ?_⟩
  obtain ⟨removed, merged, hmerge, hrest⟩ := merge_settles stall (by decide) (by decide) rfl
  obtain rfl : removed = 2 := congrArg (fun result => (result.toOption.map Prod.fst).getD 0) hmerge.symm
  exact ⟨merged, hmerge, hrest⟩

/-! ## What merging keeps -/

/-- The sink is still there: perhaps with more in front, and as it was if nothing leads to it. -/
def SinkKept (body merged : Body) : Prop :=
  ∃ kept last : Block, body.blocks[body.sink]? = some kept ∧ merged.blocks[merged.sink]? = some last ∧ last.terminator = .sink ∧
    kept.statements <:+ last.statements ∧ kept.expressions <:+ last.expressions ∧
    (¬Reaches body.blocks body.entry body.sink → last = kept)

theorem Gathered.sinkKept {merged : Body} {rows : List (List BlockId)} (h : Gathered body merged rows) (hbody : body.Checked)
    (hm : merged.Checked) : SinkKept body merged := by
  obtain ⟨kept, hk⟩ : ∃ kept, body.blocks[body.sink]? = some kept := ⟨_, getElem?_eq_getElem hbody.sink_lt⟩
  obtain ⟨last, hl⟩ : ∃ last, merged.blocks[merged.sink]? = some last := ⟨_, getElem?_eq_getElem hm.sink_lt⟩
  obtain ⟨front, hf, ha⟩ := h.sink_last
  have hp : ∀ {α : Type} {part : Block → List α}, Block.IsPart part → part last = front.flatMap (body.partAt part) ++ part kept := by
    intro α part hp
    have hh := h.partAt_merged hp merged.sink
    rw [partAt_eq hl, hf, Option.getD_some, flatMap_append, flatMap_singleton, partAt_eq hk] at hh
    exact hh
  have hs := hp Block.isPart_statements
  have he := hp Block.isPart_expressions
  have ht : last.terminator = .sink := (hm.wired.leaves _ last hl).mpr rfl
  refine ⟨kept, last, hk, hl, ht, ⟨_, hs.symm⟩, ⟨_, he.symm⟩, fun hu => ?_⟩
  have hlv : kept.terminator = .sink := (hbody.wired.leaves _ kept hk).mpr rfl
  cases kept
  cases last
  simp_all

/-- Merging keeps a body in order: it passes the check, with its entry and its sink in range; the blocks that are missing are as many
as it says; the sink is still there; and nothing but blocks has changed. Without a fold the body is what it was, and otherwise it
starts with its entry and ends with its sink. -/
theorem merge_counts (body : Body) (hentry : body.entry < body.blocks.length) (hsink : body.sink < body.blocks.length)
    (hcheck : body.defect? = .ok none) :
    ∃ removed merged, body.merge = .ok (removed, merged) ∧ merged.entry < merged.blocks.length ∧
      merged.sink < merged.blocks.length ∧ merged.defect? = .ok none ∧ removed + merged.blocks.length = body.blocks.length ∧
      SinkKept body merged ∧
      merged = { body with blocks := merged.blocks, entry := merged.entry, sink := merged.sink } ∧
      if removed = 0 then merged = body else merged.entry = 0 ∧ merged.sink + 1 = merged.blocks.length := by
  have hbody : body.Checked := ⟨hentry, hsink, hcheck⟩
  obtain ⟨removed, merged, hmerge, hsettles⟩ := hbody.merge_eq_ok
  have hmerged := hsettles.checked hbody
  obtain ⟨rows, hgathered⟩ := hsettles.gathered hbody
  exact ⟨removed, merged, hmerge, hmerged.entry_lt, hmerged.sink_lt, hmerged.passes, hsettles.count hbody,
    hgathered.sinkKept hbody hmerged, hgathered.merged_eq, hsettles.shape hbody⟩

/-- Four blocks are left of six. The last one is the sink, to which nothing leads, as it was. -/
theorem merge_counts_stall : stall.defect? = .ok none ∧
    ∃ removed merged, stall.merge = .ok (removed, merged) ∧ merged.entry < merged.blocks.length ∧
      merged.sink < merged.blocks.length ∧ merged.defect? = .ok none ∧ removed + merged.blocks.length = 6 ∧
      SinkKept stall merged ∧
      merged = { stall with blocks := merged.blocks, entry := merged.entry, sink := merged.sink } ∧
      if removed = 0 then merged = stall else merged.entry = 0 ∧ merged.sink + 1 = merged.blocks.length :=
  ⟨rfl, merge_counts stall (by decide) (by decide) rfl⟩

/-- Merging neither loses nor doubles code: all statements are there as often as before, and so are all source expressions; and what a
block held stays together in one block. -/
theorem merge_keeps_code (body : Body) (hentry : body.entry < body.blocks.length) (hsink : body.sink < body.blocks.length)
    (hcheck : body.defect? = .ok none) :
    ∃ removed merged, body.merge = .ok (removed, merged) ∧
      (merged.blocks.flatMap Block.statements).Perm (body.blocks.flatMap Block.statements) ∧
      (merged.blocks.flatMap Block.expressions).Perm (body.blocks.flatMap Block.expressions) ∧
      ∀ block ∈ body.blocks, ∃ last ∈ merged.blocks, block.statements <:+: last.statements ∧ block.expressions <:+: last.expressions := by
  have hbody : body.Checked := ⟨hentry, hsink, hcheck⟩
  obtain ⟨removed, merged, hmerge, hsettles⟩ := hbody.merge_eq_ok
  obtain ⟨rows, hgathered⟩ := hsettles.gathered hbody
  refine ⟨removed, merged, hmerge, hgathered.perm_part Block.isPart_statements, hgathered.perm_part Block.isPart_expressions,
    fun block hblock => ?_⟩
  obtain ⟨id, hid⟩ := getElem?_of_mem hblock
  obtain ⟨place, last, hlast, hparts⟩ := hgathered.exists_infix hid
  exact ⟨last, mem_of_getElem? hlast, hparts Block.isPart_statements, hparts Block.isPart_expressions⟩

/-- The two assignments of `stall`, which stood in two blocks, and its four expressions. -/
theorem merge_keeps_code_stall : stall.defect? = .ok none ∧ ∃ removed merged, stall.merge = .ok (removed, merged) ∧
      (merged.blocks.flatMap Block.statements).Perm [⟨.assign 0 (.subroutine 5), .unknown⟩, ⟨.assign 0 (.subroutine 6), .unknown⟩] ∧
      (merged.blocks.flatMap Block.expressions).Perm [10, 11, 12, 13] ∧
      ∀ block ∈ stall.blocks, ∃ last ∈ merged.blocks, block.statements <:+: last.statements ∧ block.expressions <:+: last.expressions :=
  ⟨rfl, merge_keeps_code stall (by decide) (by decide) rfl⟩

end Body

end TagAsm.Flow
