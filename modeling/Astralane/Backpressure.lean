import Astralane.ExactlyOnce

/-!
# Backpressure

What the bounded channels and the permits say together about memory, over any
interleaving: raw blocks live in fetch tasks that hold a permit, in the first
channel and in the parser, parsed blocks in the parser, the second channel and
the writer. Nothing else holds one, so a writer that stalls for any time stops
the pipeline before a further block is fetched.

The permit is what bounds the tasks: it is taken before the task exists and
given back after the send (`Backpressure.permits`).
-/

namespace Astralane

variable (cfg : PipelineConfig)

/-! ## What is alive -/

def BlockFetchOutcome.isFetched : BlockFetchOutcome → Bool
  | .fetched _ => true
  | _ => false

/-- What a task has fetched and not sent yet. -/
def FetchTask.raw : FetchTask → List BlockFetchOutcome
  | .sending _ outcome => [outcome]
  | _ => []

/-- The parser drops the raw value before it sends. -/
def ParserStage.raw : ParserStage → List BlockFetchOutcome
  | .parsing _ outcome => [outcome]
  | _ => []

/-- The fetched raw blocks: held by tasks, queued, or being parsed. -/
def PipelineState.rawAlive (s : PipelineState) : List BlockFetchOutcome :=
  (s.tasks.flatMap FetchTask.raw ++ s.blocks.map (·.2) ++ s.parser.raw).filter
    BlockFetchOutcome.isFetched

/-- The parsed blocks: held by the parser, queued, or being written. What the
parser is still building counts. -/
def PipelineState.parsedAlive (s : PipelineState) : List ParsedBlock :=
  s.parser.held ++ s.parsed ++ s.writer.held

/-- From its spawn until its send is over a task holds a permit. -/
def FetchTask.holdsPermit : FetchTask → Bool
  | .fetching _ => true
  | .sending _ _ => true
  | .sent => true
  | .released => false
  | .finished => false

/-! ## The invariant -/

structure Backpressure (s : PipelineState) : Prop where
  permits : s.permits + s.tasks.countP FetchTask.holdsPermit = cfg.maxConcurrent
  blocks : s.blocks.length ≤ cfg.blocksBound
  parsed : s.parsed.length ≤ cfg.parsedBound

theorem backpressure_init : Backpressure cfg (.init cfg) where
  permits := rfl
  blocks := Nat.zero_le _
  parsed := Nat.zero_le _

variable {cfg} {s s' : PipelineState}

theorem permits_move (hmove : PipelineMove cfg s s') :
    s'.permits + s'.tasks.countP FetchTask.holdsPermit
      = s.permits + s.tasks.countP FetchTask.holdsPermit := by
  cases hmove with
  | fetcherSpawn hfetcher hpermit =>
      simp only [List.countP_append, List.countP_cons, List.countP_nil, FetchTask.holdsPermit,
        ↓reduceIte]
      omega
  | fetcherJoin hfetcher htasks | taskFinish htasks =>
      simp only [htasks, List.countP_append, List.countP_cons, FetchTask.holdsPermit,
        Bool.false_eq_true, ↓reduceIte, Nat.add_zero]
  | taskRelease htasks =>
      simp only [htasks, List.countP_append, List.countP_cons, FetchTask.holdsPermit,
        Bool.false_eq_true, ↓reduceIte]
      omega
  | taskFetched htasks | taskRefused htasks | taskSend htasks =>
      simp only [htasks, List.countP_append, List.countP_cons, FetchTask.holdsPermit]
  | _ => rfl

theorem blocks_length_move (hmove : PipelineMove cfg s s')
    (h : s.blocks.length ≤ cfg.blocksBound) : s'.blocks.length ≤ cfg.blocksBound := by
  cases hmove with
  | taskSend htasks hroom =>
      rw [List.length_append, List.length_singleton]
      omega
  | parserReceive hparser hblocks =>
      rw [hblocks] at h
      exact Nat.le_of_succ_le h
  | _ => exact h

theorem parsed_length_move (hmove : PipelineMove cfg s s')
    (h : s.parsed.length ≤ cfg.parsedBound) : s'.parsed.length ≤ cfg.parsedBound := by
  cases hmove with
  | parserSend hparser hroom =>
      rw [List.length_append, List.length_singleton]
      omega
  | writerReceive hwriter hparsed =>
      rw [hparsed] at h
      exact Nat.le_of_succ_le h
  | _ => exact h

theorem Backpressure.move (h : Backpressure cfg s) (hmove : PipelineMove cfg s s') :
    Backpressure cfg s' where
  permits := (permits_move hmove).trans h.permits
  blocks := blocks_length_move hmove h.blocks
  parsed := parsed_length_move hmove h.parsed

theorem backpressure_of_reachable (h : PipelineReachable cfg s) : Backpressure cfg s :=
  h.invariant (backpressure_init cfg) fun hinv hmove => hinv.move hmove

/-! ## The bounds -/

/-- Where only a task with a permit holds something, and one thing at most, all
tasks together hold no more than there are permits out. -/
theorem length_flatMap_le_holdsPermit {α : Type} {f : FetchTask → List α}
    (hf : ∀ t : FetchTask, (f t).length ≤ if t.holdsPermit then 1 else 0)
    (tasks : List FetchTask) :
    (tasks.flatMap f).length ≤ tasks.countP FetchTask.holdsPermit := by
  induction tasks with
  | nil => simp
  | cons t tasks ih =>
      have ht := hf t
      rw [List.flatMap_cons, List.length_append, List.countP_cons]
      omega

theorem FetchTask.length_raw_le (t : FetchTask) :
    t.raw.length ≤ if t.holdsPermit then 1 else 0 := by
  cases t <;> simp [FetchTask.raw, FetchTask.holdsPermit]

theorem FetchTask.length_held_le (t : FetchTask) :
    t.held.length ≤ if t.holdsPermit then 1 else 0 := by
  cases t <;> simp [FetchTask.held, FetchTask.holdsPermit]

theorem ParserStage.length_raw_le (p : ParserStage) : p.raw.length ≤ 1 := by
  cases p <;> simp [ParserStage.raw]

theorem ParserStage.length_held_le (p : ParserStage) : p.held.length ≤ 1 := by
  cases p with
  | parsing slot outcome =>
      cases hparse : parseOutcome slot outcome <;> simp [ParserStage.held, hparse]
  | receiving | sending | returned => simp [ParserStage.held]

theorem WriterStage.length_held_le (w : WriterStage) : w.held.length ≤ 1 := by
  cases w <;> simp [WriterStage.held]

/-- In every state of every interleaving, however long the writer stalls, at
most `max_concurrent` raw blocks are with the tasks, a channel full is queued
and one is being parsed; and of the parsed blocks at most a channel full is
queued between the one the parser holds and the one being written. -/
theorem blocks_alive_bounded (cfg : PipelineConfig) (s : PipelineState)
    (hreach : PipelineReachable cfg s) :
    s.rawAlive.length ≤ cfg.maxConcurrent + cfg.blocksBound + 1
      ∧ s.parsedAlive.length ≤ cfg.parsedBound + 2 := by
  have h := backpressure_of_reachable hreach
  constructor
  · have hall := List.length_filter_le BlockFetchOutcome.isFetched
      (s.tasks.flatMap FetchTask.raw ++ s.blocks.map (·.2) ++ s.parser.raw)
    rw [List.length_append, List.length_append, List.length_map] at hall
    have htasks := length_flatMap_le_holdsPermit FetchTask.length_raw_le s.tasks
    have hpermits := h.permits
    have hblocks := h.blocks
    have hparser := s.parser.length_raw_le
    rw [PipelineState.rawAlive]
    omega
  · have hparser := s.parser.length_held_le
    have hwriter := s.writer.length_held_le
    have hparsed := h.parsed
    rw [PipelineState.parsedAlive, List.length_append, List.length_append]
    omega

/-- Five slots, all with the same block, through channels of capacity one and a
single permit. -/
def emptyBlock : Json :=
  .obj [("blockhash", .str "h"), ("transactions", .arr [])]

def stalledConfig : PipelineConfig where
  slotsBound := 1
  blocksBound := 1
  parsedBound := 1
  maxConcurrent := 1
  slotsBound_pos := Nat.one_pos
  blocksBound_pos := Nat.one_pos
  parsedBound_pos := Nat.one_pos
  startSlot := 1
  endSlot := 5
  outcome _ := .fetched emptyBlock
  monitorChannels := false

/-- The next slot, up to the release of its permit by task `i`. -/
def fetchActions (i : Nat) : List PipelineAction :=
  [.walker, .fetcher, .fetcher, .task i, .task i, .task i]

/-- The writer never gets past the first block. -/
def stalledRun : List PipelineAction :=
  fetchActions 0 ++ [.parser, .parser, .parser, .writer] ++ fetchActions 1
    ++ [.parser, .parser, .parser] ++ fetchActions 2 ++ [.parser] ++ fetchActions 3
    ++ [.walker, .fetcher, .fetcher, .task 4]

def stalledState : PipelineState where
  walker := .walking []
  slots := []
  fetcher := .receiving
  permits := 0
  tasks := [.released, .released, .released, .released, .sending 5 (.fetched emptyBlock)]
  blocks := [(4, .fetched emptyBlock)]
  parser := .parsing 3 (.fetched emptyBlock)
  parsed := [⟨2, some "h", none, false, []⟩]
  writer := .writing ⟨1, some "h", none, false, []⟩
  received := [(1, .fetched emptyBlock), (2, .fetched emptyBlock), (3, .fetched emptyBlock)]
  written := []

/-- Both bounds are reached. -/
theorem blocks_alive_bounded_stalled :
    (stalledState.rawAlive.length = 1 + 1 + 1 ∧ stalledState.parsedAlive.length = 1 + 2)
      ∧ stalledState.rawAlive.length ≤ 1 + 1 + 1 ∧ stalledState.parsedAlive.length ≤ 1 + 2 := by
  have hrun : Transition.runActions (pipelineStep stalledConfig) stalledRun (.init stalledConfig)
      = some stalledState := rfl
  exact ⟨⟨rfl, rfl⟩,
    blocks_alive_bounded stalledConfig stalledState (Transition.Reachable.run .start hrun)⟩

end Astralane
