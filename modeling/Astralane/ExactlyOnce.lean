import Mathlib.Data.List.Count
import Mathlib.Data.List.Perm.Basic
import Mathlib.Data.List.Range
import Astralane.Pipeline

/-!
# Every slot is handled exactly once

The invariant of the pipeline, over any interleaving: every slot of the range is
in exactly one place, from the walker's list over queues and tasks to the
parser's record (`accounted`); what follows it along carries the answer of its
own `get_block` (`genuine`); and the parser's record, parsed, is what the writer
was called on followed by what is still on its way to it (`delivered`). The
shutdown order, stage by stage, is what rules out that a send is refused or a
queue left behind (`Shutdown`).
-/

namespace Astralane

variable (cfg : PipelineConfig)

/-! ## Where a slot is -/

def Walker.todo : Walker → List UInt64
  | .walking todo => todo
  | .returned => []

/-- The slot a fetcher holds while it waits for a permit. -/
def Fetcher.held : Fetcher → List UInt64
  | .acquiring slot => [slot]
  | _ => []

/-- The slot of a task that has not sent yet. -/
def FetchTask.held : FetchTask → List UInt64
  | .fetching slot => [slot]
  | .sending slot _ => [slot]
  | _ => []

/-- All slots, from the walker's list to the parser's record. -/
def PipelineState.inPlace (s : PipelineState) : List UInt64 :=
  s.walker.todo ++ s.slots ++ s.fetcher.held ++ s.tasks.flatMap FetchTask.held
    ++ s.blocks.map (·.1) ++ s.received.map (·.1)

/-- The block the parser makes of a received pair. -/
def parsePair (pair : UInt64 × BlockFetchOutcome) : Option ParsedBlock :=
  parseOutcome pair.1 pair.2

/-- The block the parser has received but not sent. -/
def ParserStage.held : ParserStage → List ParsedBlock
  | .parsing slot outcome => (parseOutcome slot outcome).toList
  | .sending block => [block]
  | _ => []

/-- The block the writer has received but not written. -/
def WriterStage.held : WriterStage → List ParsedBlock
  | .writing block => [block]
  | _ => []

/-! ## The invariant -/

/-- Who has returned, in order: what lies behind a stage that has ended is empty
and stays so. -/
structure Shutdown (s : PipelineState) : Prop where
  slots_closed : s.fetcher = .joining ∨ s.fetcher = .returned →
    s.walker = .returned ∧ s.slots = []
  tasks_joined : s.fetcher = .returned → s.tasks = []
  blocks_closed : s.parser = .returned → s.fetcher = .returned ∧ s.blocks = []
  parsed_closed : s.writer = .returned → s.parser = .returned ∧ s.parsed = []

structure PipelineInv (s : PipelineState) : Prop extends Shutdown s where
  accounted : s.inPlace.Perm (slotRange cfg.startSlot cfg.endSlot)
  genuine_tasks : ∀ slot outcome, .sending slot outcome ∈ s.tasks → outcome = cfg.outcome slot
  genuine : ∀ pair ∈ s.blocks ++ s.received, pair.2 = cfg.outcome pair.1
  delivered : s.received.filterMap parsePair
    = s.written ++ s.writer.held ++ s.parsed ++ s.parser.held

theorem pipelineInv_init : PipelineInv cfg (.init cfg) where
  slots_closed h := by simp [PipelineState.init] at h
  tasks_joined h := by simp [PipelineState.init] at h
  blocks_closed h := by simp [PipelineState.init] at h
  parsed_closed h := by simp [PipelineState.init] at h
  accounted := by simp [PipelineState.init, PipelineState.inPlace, Walker.todo, Fetcher.held]
  genuine_tasks := by simp [PipelineState.init]
  genuine := by simp [PipelineState.init]
  delivered := rfl

variable {cfg} {s s' : PipelineState}

/-! ## Preservation, clause by clause -/

section Move

variable (h : Shutdown s) (hmove : PipelineMove cfg s s')
include h hmove

theorem slots_closed_move (hf : s'.fetcher = .joining ∨ s'.fetcher = .returned) :
    s'.walker = .returned ∧ s'.slots = [] := by
  cases hmove with
  | walkerSend hwalker hroom =>
      have hreturned := (h.slots_closed hf).1
      rw [hwalker] at hreturned
      nomatch hreturned
  | walkerRefused hwalker hgone => exact ⟨rfl, (h.slots_closed (Or.inr hgone)).2⟩
  | walkerReturn hwalker => exact ⟨rfl, (h.slots_closed hf).2⟩
  | fetcherReceive | fetcherSpawn => rcases hf with hf | hf <;> nomatch hf
  | fetcherClosed hfetcher hslots hwalker => exact ⟨hwalker, hslots⟩
  | fetcherReturn hfetcher htasks => exact h.slots_closed (Or.inl hfetcher)
  | _ => exact h.slots_closed hf

theorem tasks_joined_move (hf : s'.fetcher = .returned) : s'.tasks = [] := by
  have hnone : ∀ {pre post : List FetchTask} {t : FetchTask}, s.fetcher = .returned →
      s.tasks ≠ pre ++ t :: post := by
    intro pre post t hreturned htasks
    simpa [htasks] using h.tasks_joined hreturned
  cases hmove with
  | fetcherReceive | fetcherClosed | fetcherSpawn => nomatch hf
  | fetcherReturn hfetcher htasks => exact htasks
  | fetcherJoin hfetcher htasks => exact absurd htasks (hnone hf)
  | taskFetched htasks => exact absurd htasks (hnone hf)
  | taskRefused htasks hgone => exact absurd htasks (hnone hf)
  | taskSend htasks hroom => exact absurd htasks (hnone hf)
  | taskRelease htasks => exact absurd htasks (hnone hf)
  | taskFinish htasks => exact absurd htasks (hnone hf)
  | _ => exact h.tasks_joined hf

theorem blocks_closed_move (hp : s'.parser = .returned) :
    s'.fetcher = .returned ∧ s'.blocks = [] := by
  cases hmove with
  | fetcherReceive hfetcher _ | fetcherClosed hfetcher _ _ | fetcherSpawn hfetcher _ =>
      have hreturned := (h.blocks_closed hp).1
      rw [hfetcher] at hreturned
      nomatch hreturned
  | fetcherReturn => exact ⟨rfl, (h.blocks_closed hp).2⟩
  | taskSend htasks hroom =>
      have hempty := h.tasks_joined (h.blocks_closed hp).1
      rw [htasks] at hempty
      simp at hempty
  | parserReceive | parserParsed | parserSkipped | parserSend => nomatch hp
  | parserClosed hparser hblocks hfetcher => exact ⟨hfetcher, hblocks⟩
  | parserRefused hparser hgone =>
      have hreturned := (h.parsed_closed hgone).1
      rw [hparser] at hreturned
      nomatch hreturned
  | _ => exact h.blocks_closed hp

theorem parsed_closed_move (hw : s'.writer = .returned) :
    s'.parser = .returned ∧ s'.parsed = [] := by
  cases hmove with
  | parserReceive hparser _ | parserParsed hparser _ | parserSkipped hparser _
  | parserSend hparser _ =>
      have hreturned := (h.parsed_closed hw).1
      rw [hparser] at hreturned
      nomatch hreturned
  | parserClosed | parserRefused => exact ⟨rfl, (h.parsed_closed hw).2⟩
  | writerReceive | writerWrite => nomatch hw
  | writerClosed hwriter hparsed hparser => exact ⟨hparser, hparsed⟩
  | _ => exact h.parsed_closed hw

theorem Shutdown.move : Shutdown s' where
  slots_closed := slots_closed_move h hmove
  tasks_joined := tasks_joined_move h hmove
  blocks_closed := blocks_closed_move h hmove
  parsed_closed := parsed_closed_move h hmove

/-- A move takes a slot from one place to the next and never drops one: a
refused send would, but its receiver returns only after the sender. -/
theorem inPlace_move : s'.inPlace.Perm s.inPlace := by
  refine List.perm_iff_count.mpr fun slot => ?_
  simp only [PipelineState.inPlace, List.count_append]
  cases hmove with
  | walkerSend hwalker hroom =>
      simp only [hwalker, Walker.todo, List.count_append, List.count_cons, List.count_nil]
      omega
  | walkerRefused hwalker hgone =>
      rw [(h.slots_closed (Or.inr hgone)).1]
  | walkerReturn hwalker =>
      rw [hwalker]
      rfl
  | fetcherReceive hfetcher hslots =>
      simp only [hfetcher, hslots, Fetcher.held, List.count_cons, List.count_nil]
      omega
  | fetcherClosed hfetcher =>
      rw [hfetcher]
      rfl
  | fetcherSpawn hfetcher hpermit =>
      simp only [hfetcher, Fetcher.held, FetchTask.held, List.flatMap_append, List.flatMap_cons,
        List.flatMap_nil, List.count_append, List.count_cons, List.count_nil]
      omega
  | fetcherReturn hfetcher =>
      rw [hfetcher]
      rfl
  | fetcherJoin hfetcher htasks | taskRelease htasks | taskFinish htasks =>
      simp only [htasks, FetchTask.held, List.flatMap_append, List.flatMap_cons, List.nil_append]
  | taskFetched htasks =>
      simp only [htasks, FetchTask.held, List.flatMap_append, List.flatMap_cons]
  | taskRefused htasks hgone =>
      have hempty := h.tasks_joined (h.blocks_closed hgone).1
      rw [htasks] at hempty
      simp at hempty
  | taskSend htasks hroom =>
      simp only [htasks, FetchTask.held, List.flatMap_append, List.flatMap_cons, List.map_append,
        List.map_cons, List.map_nil, List.count_append, List.count_cons, List.count_nil]
      omega
  | parserReceive hparser hblocks =>
      simp only [hblocks, List.map_append, List.map_cons, List.map_nil, List.count_append,
        List.count_cons, List.count_nil]
      omega
  | _ => rfl

/-- The writer's and the parser's ends of the parsed channel move in step. -/
theorem delivered_move
    (hdelivered : s.received.filterMap parsePair
      = s.written ++ s.writer.held ++ s.parsed ++ s.parser.held) :
    s'.received.filterMap parsePair
      = s'.written ++ s'.writer.held ++ s'.parsed ++ s'.parser.held := by
  cases hmove with
  | parserReceive hparser hblocks =>
      rename_i slot outcome blocks
      rw [List.filterMap_append, hdelivered, hparser]
      simp only [ParserStage.held, List.append_nil]
      refine congrArg _ ?_
      cases hparse : parseOutcome slot outcome <;> simp [parsePair, hparse]
  | parserClosed hparser =>
      rw [hdelivered, hparser]
      rfl
  | parserParsed hparser hparse =>
      rw [hdelivered, hparser, ParserStage.held, hparse]
      rfl
  | parserSkipped hparser hparse =>
      rw [hdelivered, hparser, ParserStage.held, hparse]
      rfl
  | parserRefused hparser hgone =>
      have hreturned := (h.parsed_closed hgone).1
      rw [hparser] at hreturned
      nomatch hreturned
  | parserSend hparser hroom =>
      rw [hdelivered, hparser]
      simp only [ParserStage.held, List.append_assoc, List.append_nil]
  | writerReceive hwriter hparsed =>
      rw [hdelivered, hwriter, hparsed]
      simp only [WriterStage.held, List.append_nil, List.append_assoc, List.singleton_append]
  | writerClosed hwriter =>
      rw [hdelivered, hwriter]
      rfl
  | writerWrite hwriter =>
      rw [hdelivered, hwriter]
      simp only [WriterStage.held, List.append_nil]
  | _ => exact hdelivered

omit h in
theorem genuine_tasks_move
    (htasks : ∀ slot outcome, .sending slot outcome ∈ s.tasks → outcome = cfg.outcome slot) :
    ∀ slot outcome, .sending slot outcome ∈ s'.tasks → outcome = cfg.outcome slot := by
  intro slot outcome hmem
  cases hmove with
  | fetcherSpawn =>
      rcases List.mem_append.mp hmem with hmem | hmem
      · exact htasks slot outcome hmem
      · nomatch List.mem_singleton.mp hmem
  | fetcherJoin hfetcher hsplit =>
      rw [hsplit] at htasks
      refine htasks slot outcome ?_
      simp only [List.mem_append, List.mem_cons] at hmem ⊢
      exact hmem.imp_right Or.inr
  | taskFetched hsplit =>
      rw [hsplit] at htasks
      simp only [List.mem_append, List.mem_cons] at hmem
      rcases hmem with hmem | hmem | hmem
      · exact htasks slot outcome (by simp [hmem])
      · obtain ⟨rfl, rfl⟩ := FetchTask.sending.inj hmem
        rfl
      · exact htasks slot outcome (by simp [hmem])
  | taskRefused hsplit | taskSend hsplit | taskRelease hsplit | taskFinish hsplit =>
      rw [hsplit] at htasks
      simp only [List.mem_append, List.mem_cons, reduceCtorEq, false_or] at hmem
      rcases hmem with hmem | hmem
      · exact htasks slot outcome (by simp [hmem])
      · exact htasks slot outcome (by simp [hmem])
  | _ => exact htasks slot outcome hmem

omit h in
theorem genuine_move
    (htasks : ∀ slot outcome, .sending slot outcome ∈ s.tasks → outcome = cfg.outcome slot)
    (hgenuine : ∀ pair ∈ s.blocks ++ s.received, pair.2 = cfg.outcome pair.1) :
    ∀ pair ∈ s'.blocks ++ s'.received, pair.2 = cfg.outcome pair.1 := by
  intro pair hmem
  cases hmove with
  | taskSend hsplit hroom =>
      simp only [List.mem_append, List.mem_singleton] at hmem
      rcases hmem with (hmem | rfl) | hmem
      · exact hgenuine pair (List.mem_append_left _ hmem)
      · exact htasks _ _ (by simp [hsplit])
      · exact hgenuine pair (List.mem_append_right _ hmem)
  | parserReceive hparser hblocks =>
      refine hgenuine pair ?_
      rw [hblocks]
      simp only [List.mem_append, List.mem_cons, List.not_mem_nil, or_false] at hmem ⊢
      rcases hmem with hmem | hmem | hmem
      · exact Or.inl (Or.inr hmem)
      · exact Or.inr hmem
      · exact Or.inl (Or.inl hmem)
  | _ => exact hgenuine pair hmem

end Move

theorem PipelineInv.move (h : PipelineInv cfg s) (hmove : PipelineMove cfg s s') :
    PipelineInv cfg s' where
  toShutdown := h.toShutdown.move hmove
  accounted := (inPlace_move h.toShutdown hmove).trans h.accounted
  genuine_tasks := genuine_tasks_move hmove h.genuine_tasks
  genuine := genuine_move hmove h.genuine_tasks h.genuine
  delivered := delivered_move h.toShutdown hmove h.delivered

theorem pipelineInv_of_reachable (h : PipelineReachable cfg s) : PipelineInv cfg s :=
  h.invariant (pipelineInv_init cfg) fun hinv hmove => hinv.move hmove

/-! ## Completed runs -/

theorem mem_slotRange {startSlot endSlot slot : UInt64} :
    slot ∈ slotRange startSlot endSlot ↔ startSlot ≤ slot ∧ slot ≤ endSlot := by
  simp only [slotRange, List.mem_map, List.mem_range'_1, UInt64.le_iff_toNat_le]
  constructor
  · rintro ⟨n, ⟨hlo, hhi⟩, rfl⟩
    have hn : n < 2 ^ 64 := by
      have := endSlot.toNat_lt
      omega
    rw [UInt64.toNat_ofNat_of_lt' hn]
    omega
  · rintro ⟨hlo, hhi⟩
    exact ⟨slot.toNat, by omega, UInt64.ofNat_toNat⟩

theorem slotRange_nodup (startSlot endSlot : UInt64) : (slotRange startSlot endSlot).Nodup := by
  refine List.Nodup.map_on ?_ List.nodup_range'
  intro m hm n hn heq
  rw [List.mem_range'_1] at hm hn
  have hend := endSlot.toNat_lt
  have hm' : m < 2 ^ 64 := by omega
  have hn' : n < 2 ^ 64 := by omega
  have htoNat := congrArg UInt64.toNat heq
  rwa [UInt64.toNat_ofNat_of_lt' hm', UInt64.toNat_ofNat_of_lt' hn'] at htoNat

/-- All four stages have returned. -/
structure PipelineState.Completed (s : PipelineState) : Prop where
  walker : s.walker = .returned
  fetcher : s.fetcher = .returned
  parser : s.parser = .returned
  writer : s.writer = .returned

/-- The blocks `write_block` was called on for a slot. -/
def PipelineState.writtenFor (s : PipelineState) (slot : UInt64) : List ParsedBlock :=
  s.written.filter fun b => b.slot = slot

/-- What a completed run did with the slots of its range: each was received once, and
written once if it was skipped or its block well formed; nothing else was written. -/
structure HandledOnce (cfg : PipelineConfig) (s : PipelineState) : Prop where
  received : s.received.Perm
    ((slotRange cfg.startSlot cfg.endSlot).map fun slot => (slot, cfg.outcome slot))
  received_once : ∀ slot, (s.received.map (·.1)).count slot
    = if cfg.startSlot ≤ slot ∧ slot ≤ cfg.endSlot then 1 else 0
  within : ∀ b ∈ s.written, cfg.startSlot ≤ b.slot ∧ b.slot ≤ cfg.endSlot
  skipped : ∀ slot, cfg.startSlot ≤ slot → slot ≤ cfg.endSlot → cfg.outcome slot = .skipped →
    s.writtenFor slot
      = [{ slot, blockhash := none, blockTime := none, skipped := true, transactions := [] }]
  fetched : ∀ slot v b, cfg.startSlot ≤ slot → slot ≤ cfg.endSlot →
    cfg.outcome slot = .fetched v → parseBlock slot v = some b → s.writtenFor slot = [b]
  malformed : ∀ slot v, cfg.outcome slot = .fetched v → parseBlock slot v = none →
    s.writtenFor slot = []
  failed : ∀ slot msg, cfg.outcome slot = .failed msg → s.writtenFor slot = []

section Completed

variable (hinv : PipelineInv cfg s) (hdone : s.Completed)
include hinv hdone

theorem received_slots : (s.received.map (·.1)).Perm (slotRange cfg.startSlot cfg.endSlot) := by
  have hplace : s.inPlace = s.received.map (·.1) := by
    rw [PipelineState.inPlace, hdone.walker, hdone.fetcher,
      (hinv.slots_closed (Or.inr hdone.fetcher)).2, hinv.tasks_joined hdone.fetcher,
      (hinv.blocks_closed hdone.parser).2]
    rfl
  rw [← hplace]
  exact hinv.accounted

omit hdone in
theorem received_eq_map :
    s.received = (s.received.map (·.1)).map fun slot => (slot, cfg.outcome slot) := by
  have hpair : ∀ pair ∈ s.received, (pair.1, cfg.outcome pair.1) = pair := fun pair hmem =>
    Prod.ext rfl (hinv.genuine pair (List.mem_append_right _ hmem)).symm
  rw [List.map_map]
  exact (List.map_id' s.received).symm.trans (List.map_congr_left fun pair hmem =>
    (hpair pair hmem).symm)

theorem written_eq_filterMap :
    s.written = (s.received.map (·.1)).filterMap fun slot =>
      parseOutcome slot (cfg.outcome slot) := by
  have hdelivered := hinv.delivered
  rw [hdone.writer, hdone.parser, (hinv.parsed_closed hdone.writer).2] at hdelivered
  simp only [WriterStage.held, ParserStage.held, List.append_nil] at hdelivered
  calc s.written
      = s.received.filterMap parsePair := hdelivered.symm
    _ = ((s.received.map (·.1)).map fun slot => (slot, cfg.outcome slot)).filterMap parsePair :=
        congrArg _ (received_eq_map hinv)
    _ = _ := List.filterMap_map

end Completed

/-- A parsed block carries the slot it was fetched for. -/
theorem map_slot_filterMap (f : UInt64 → BlockFetchOutcome) (slots : List UInt64) :
    (slots.filterMap fun slot => parseOutcome slot (f slot)).map (·.slot)
      = slots.filter fun slot => (parseOutcome slot (f slot)).isSome := by
  induction slots with
  | nil => rfl
  | cons slot slots ih =>
      cases hparse : parseOutcome slot (f slot) with
      | none => simp [hparse, ih]
      | some b => simp [hparse, ih, parseOutcome_slot hparse]

/-- A slot leaves what the parser makes of its outcome, if anything. -/
theorem filter_slot_filterMap (f : UInt64 → BlockFetchOutcome) {slots : List UInt64}
    (hnd : slots.Nodup) (slot : UInt64) :
    ((slots.filterMap fun slot => parseOutcome slot (f slot)).filter fun b => b.slot = slot)
      = if slot ∈ slots then (parseOutcome slot (f slot)).toList else [] := by
  induction slots with
  | nil => rfl
  | cons x slots ih =>
      obtain ⟨hx, hnd'⟩ := List.nodup_cons.mp hnd
      have hhead : ((parseOutcome x (f x)).toList.filter fun b => b.slot = slot)
          = if x = slot then (parseOutcome x (f x)).toList else [] := by
        cases hparse : parseOutcome x (f x) with
        | none => simp
        | some b => simp [parseOutcome_slot hparse, List.filter_cons]
      rw [List.filterMap_eq_flatMap_toList, List.flatMap_cons, List.filter_append,
        ← List.filterMap_eq_flatMap_toList, ih hnd', hhead]
      by_cases heq : x = slot
      · subst heq
        rw [if_pos rfl, if_neg hx, if_pos List.mem_cons_self, List.append_nil]
      · rw [if_neg heq, List.nil_append]
        exact if_congr (by simp [Ne.symm heq]) rfl rfl

section Completed

variable (hinv : PipelineInv cfg s) (hdone : s.Completed)
include hinv hdone

theorem written_perm :
    s.written.Perm ((slotRange cfg.startSlot cfg.endSlot).filterMap fun slot =>
      parseOutcome slot (cfg.outcome slot)) := by
  rw [written_eq_filterMap hinv hdone]
  exact (received_slots hinv hdone).filterMap _

theorem writtenFor_eq (slot : UInt64) :
    s.writtenFor slot = if cfg.startSlot ≤ slot ∧ slot ≤ cfg.endSlot
      then (parseOutcome slot (cfg.outcome slot)).toList else [] := by
  have hperm : (s.writtenFor slot).Perm (if cfg.startSlot ≤ slot ∧ slot ≤ cfg.endSlot
      then (parseOutcome slot (cfg.outcome slot)).toList else []) := by
    refine ((written_perm hinv hdone).filter _).trans (List.Perm.of_eq ?_)
    rw [filter_slot_filterMap cfg.outcome (slotRange_nodup _ _)]
    exact if_congr mem_slotRange rfl rfl
  -- a list of at most one element has no other order
  by_cases hin : cfg.startSlot ≤ slot ∧ slot ≤ cfg.endSlot
  · rw [if_pos hin] at hperm ⊢
    cases hparse : parseOutcome slot (cfg.outcome slot) with
    | none =>
        rw [hparse] at hperm
        exact List.perm_nil.mp hperm
    | some b =>
        rw [hparse] at hperm
        exact List.perm_singleton.mp hperm
  · rw [if_neg hin] at hperm ⊢
    exact List.perm_nil.mp hperm

theorem handledOnce_of_completed : HandledOnce cfg s := by
  have hslots := received_slots hinv hdone
  have hnd := slotRange_nodup cfg.startSlot cfg.endSlot
  have hwritten := writtenFor_eq hinv hdone
  constructor
  · rw [received_eq_map hinv]
    exact hslots.map _
  · intro slot
    rw [hslots.count_eq, hnd.count]
    exact if_congr mem_slotRange rfl rfl
  · intro b hb
    obtain ⟨slot, hslot, hparse⟩ :=
      List.mem_filterMap.mp ((written_perm hinv hdone).mem_iff.mp hb)
    exact mem_slotRange.mp (parseOutcome_slot hparse ▸ hslot)
  · intro slot hlo hhi houtcome
    rw [hwritten, if_pos ⟨hlo, hhi⟩, houtcome]
    rfl
  · intro slot v b hlo hhi houtcome hparse
    rw [hwritten, if_pos ⟨hlo, hhi⟩, houtcome, parseOutcome, hparse]
    rfl
  · intro slot v houtcome hparse
    rw [hwritten, houtcome, parseOutcome, hparse]
    exact ite_self []
  · intro slot msg houtcome
    rw [hwritten, houtcome]
    exact ite_self []

end Completed

/-- Over all interleavings: in every state each slot of the range is in one
place, and when all stages have returned, the parser has received each slot
once, with its own answer, and `write_block` was called once for each slot that is
skipped or has a well-formed block, with that block, and for no other. -/
theorem pipeline_exactly_once (cfg : PipelineConfig) (s : PipelineState)
    (hreach : PipelineReachable cfg s) :
    s.inPlace.Perm (slotRange cfg.startSlot cfg.endSlot) ∧ (s.Completed → HandledOnce cfg s) := by
  have hinv := pipelineInv_of_reachable hreach
  exact ⟨hinv.accounted, handledOnce_of_completed hinv⟩

/-- A run over four slots, a failed, a skipped, a well-formed and a malformed one,
through channels of capacity one and a single permit. -/
def tightConfig : PipelineConfig where
  slotsBound := 1
  blocksBound := 1
  parsedBound := 1
  maxConcurrent := 1
  slotsBound_pos := Nat.one_pos
  blocksBound_pos := Nat.one_pos
  parsedBound_pos := Nat.one_pos
  startSlot := 7
  endSlot := 10
  outcome slot :=
    if slot = 7 then .failed "http status 404"
    else if slot = 8 then .skipped
    else if slot = 9 then .fetched rawBlock
    else .fetched .null
  monitorChannels := false

/-- The walker waits for room behind a slot that waits for the permit, and is done
while the second fetch is in flight. -/
def tightRun : List PipelineAction :=
  [.walker, .fetcher, .walker, .fetcher, .fetcher, .walker, .task 0, .task 0, .task 0, .fetcher,
   .fetcher, .walker, .walker, .task 1, .task 0, .parser, .task 1, .task 1, .fetcher, .fetcher,
   .task 2, .task 1, .parser, .parser, .task 2, .task 2, .fetcher, .fetcher, .task 3, .task 2,
   .parser, .parser, .parser, .task 3, .task 3, .task 3, .parser, .writer, .parser, .parser,
   .parser, .writer, .writer, .writer, .join 0, .join 0, .join 0, .join 0, .fetcher, .parser,
   .writer]

def tightEnd : PipelineState where
  walker := .returned
  slots := []
  fetcher := .returned
  permits := 1
  tasks := []
  blocks := []
  parser := .returned
  parsed := []
  writer := .returned
  received :=
    [(7, .failed "http status 404"), (8, .skipped), (9, .fetched rawBlock), (10, .fetched .null)]
  written := [⟨8, none, none, true, []⟩, { parsedBlock with slot := 9 }]

theorem pipeline_exactly_once_tight :
    Transition.runActions (pipelineStep tightConfig) tightRun (.init tightConfig) = some tightEnd
      ∧ HandledOnce tightConfig tightEnd := by
  have hrun : Transition.runActions (pipelineStep tightConfig) tightRun (.init tightConfig)
      = some tightEnd := rfl
  have hexact := pipeline_exactly_once tightConfig tightEnd (Transition.Reachable.run .start hrun)
  exact ⟨hrun, hexact.2 ⟨rfl, rfl, rfl, rfl⟩⟩

end Astralane
