import Mathlib.Data.List.Basic
import Astralane.Parser
import Astralane.Transition

/-!
# The ingestion pipeline

The four stages `main` spawns and the three bounded channels between them, as
one transition system. An action is one stage moving on to its next await point;
every interleaving is a sequence of actions. A stage cannot move while it waits:
for room in a full channel, for a message, for a permit, for a task to end.

A channel is its queue. `send` fails once the receiver is gone, and `recv` ends
once the queue is empty and every sender is gone; who holds a sender is read off
the stages: a stage drops its handles when it returns, a fetch task drops its
clone when it finishes, the `MONITOR_CHANNELS` probes never drop theirs.

A fetch task gives its permit back after its send. The writer's pause is left
out: it only delays, and any delay is an interleaving.
-/

namespace Astralane

/-- What `main` wires up, with what the run is given: the answer to every
`get_block`, and whether `MONITOR_CHANNELS` is set. A channel of capacity zero
cannot be created. -/
structure PipelineConfig where
  slotsBound : Nat
  blocksBound : Nat
  parsedBound : Nat
  maxConcurrent : Nat
  slotsBound_pos : 0 < slotsBound
  blocksBound_pos : 0 < blocksBound
  parsedBound_pos : 0 < parsedBound
  startSlot : UInt64
  endSlot : UInt64
  outcome : UInt64 → BlockFetchOutcome
  monitorChannels : Bool

/-- `start..=end`. -/
def slotRange (startSlot endSlot : UInt64) : List UInt64 :=
  (List.range' startSlot.toNat (endSlot.toNat + 1 - startSlot.toNat)).map UInt64.ofNat

/-! ## States -/

/-- `walk_slots`: about to send the head of what is left. -/
inductive Walker where
  | walking (todo : List UInt64)
  | returned

/-- `fetcher::run`: at `recv`, at `acquire_owned`, at `join_next`. -/
inductive Fetcher where
  | receiving
  | acquiring (slot : UInt64)
  | joining
  | returned

/-- A spawned fetch task: at `get_block`, at `send`, before it drops its permit,
before it drops its sender, ended but not joined. -/
inductive FetchTask where
  | fetching (slot : UInt64)
  | sending (slot : UInt64) (outcome : BlockFetchOutcome)
  | sent
  | released
  | finished

/-- `parser::run`: at `recv`, in the `match`, at `send`. -/
inductive ParserStage where
  | receiving
  | parsing (slot : UInt64) (outcome : BlockFetchOutcome)
  | sending (parsed : ParsedBlock)
  | returned

/-- `writer::run_blocking`: at `blocking_recv`, in `write_block`. -/
inductive WriterStage where
  | receiving
  | writing (block : ParsedBlock)
  | returned

/-- `received` and `written` record what the parser received and the blocks
`write_block` was called on. -/
structure PipelineState where
  walker : Walker
  slots : List UInt64
  fetcher : Fetcher
  permits : Nat
  tasks : List FetchTask
  blocks : List (UInt64 × BlockFetchOutcome)
  parser : ParserStage
  parsed : List ParsedBlock
  writer : WriterStage
  received : List (UInt64 × BlockFetchOutcome)
  written : List ParsedBlock

def PipelineState.init (cfg : PipelineConfig) : PipelineState where
  walker := .walking (slotRange cfg.startSlot cfg.endSlot)
  slots := []
  fetcher := .receiving
  permits := cfg.maxConcurrent
  tasks := []
  blocks := []
  parser := .receiving
  parsed := []
  writer := .receiving
  received := []
  written := []

def Walker.hasReturned : Walker → Bool
  | .returned => true
  | _ => false

def Fetcher.hasReturned : Fetcher → Bool
  | .returned => true
  | _ => false

def FetchTask.hasFinished : FetchTask → Bool
  | .finished => true
  | _ => false

def ParserStage.hasReturned : ParserStage → Bool
  | .returned => true
  | _ => false

def WriterStage.hasReturned : WriterStage → Bool
  | .returned => true
  | _ => false

/-- No sender of the fetcher-to-parser channel is left. -/
def PipelineState.blocksClosed (cfg : PipelineConfig) (s : PipelineState) : Bool :=
  s.fetcher.hasReturned && s.tasks.all FetchTask.hasFinished && !cfg.monitorChannels

/-- No sender of the parser-to-writer channel is left. -/
def PipelineState.parsedClosed (cfg : PipelineConfig) (s : PipelineState) : Bool :=
  s.parser.hasReturned && !cfg.monitorChannels

/-! ## Steps -/

variable (cfg : PipelineConfig)

def walkerStep (s : PipelineState) : Option PipelineState :=
  match s.walker with
  | .walking (slot :: todo) =>
      if s.fetcher.hasReturned then some { s with walker := .returned }
      else if s.slots.length < cfg.slotsBound then
        some { s with walker := .walking todo, slots := s.slots ++ [slot] }
      else none
  | .walking [] => some { s with walker := .returned }
  | .returned => none

def fetcherStep (s : PipelineState) : Option PipelineState :=
  match s.fetcher, s.slots with
  | .receiving, slot :: slots => some { s with fetcher := .acquiring slot, slots }
  | .receiving, [] =>
      if s.walker.hasReturned then some { s with fetcher := .joining } else none
  | .acquiring slot, _ =>
      if 0 < s.permits then
        some
          { s with
            fetcher := .receiving
            permits := s.permits - 1
            tasks := s.tasks ++ [.fetching slot] }
      else none
  | .joining, _ => if s.tasks.isEmpty then some { s with fetcher := .returned } else none
  | .returned, _ => none

/-- `join_next` yields the ended task `i`. -/
def joinStep (i : Nat) (s : PipelineState) : Option PipelineState :=
  match s.fetcher, s.tasks[i]? with
  | .joining, some .finished => some { s with tasks := s.tasks.eraseIdx i }
  | _, _ => none

def taskStep (i : Nat) (s : PipelineState) : Option PipelineState :=
  match s.tasks[i]? with
  | some (.fetching slot) =>
      some { s with tasks := s.tasks.set i (.sending slot (cfg.outcome slot)) }
  | some (.sending slot outcome) =>
      if s.parser.hasReturned then some { s with tasks := s.tasks.set i .sent }
      else if s.blocks.length < cfg.blocksBound then
        some { s with tasks := s.tasks.set i .sent, blocks := s.blocks ++ [(slot, outcome)] }
      else none
  | some .sent => some { s with tasks := s.tasks.set i .released, permits := s.permits + 1 }
  | some .released => some { s with tasks := s.tasks.set i .finished }
  | _ => none

def parserStep (s : PipelineState) : Option PipelineState :=
  match s.parser, s.blocks with
  | .receiving, (slot, outcome) :: blocks =>
      some
        { s with
          parser := .parsing slot outcome
          blocks
          received := s.received ++ [(slot, outcome)] }
  | .receiving, [] =>
      if s.blocksClosed cfg then some { s with parser := .returned } else none
  | .parsing slot outcome, _ =>
      match parseOutcome slot outcome with
      | some parsed => some { s with parser := .sending parsed }
      | none => some { s with parser := .receiving }
  | .sending block, _ =>
      if s.writer.hasReturned then some { s with parser := .returned }
      else if s.parsed.length < cfg.parsedBound then
        some { s with parser := .receiving, parsed := s.parsed ++ [block] }
      else none
  | .returned, _ => none

def writerStep (s : PipelineState) : Option PipelineState :=
  match s.writer, s.parsed with
  | .receiving, block :: parsed => some { s with writer := .writing block, parsed }
  | .receiving, [] =>
      if s.parsedClosed cfg then some { s with writer := .returned } else none
  | .writing block, _ => some { s with writer := .receiving, written := s.written ++ [block] }
  | .returned, _ => none

inductive PipelineAction where
  | walker
  | fetcher
  | join (i : Nat)
  | task (i : Nat)
  | parser
  | writer
deriving DecidableEq, Repr

def pipelineStep : PipelineAction → PipelineState → Option PipelineState
  | .walker => walkerStep cfg
  | .fetcher => fetcherStep
  | .join i => joinStep i
  | .task i => taskStep cfg i
  | .parser => parserStep cfg
  | .writer => writerStep cfg

abbrev PipelineReachable (s : PipelineState) : Prop :=
  Transition.Reachable (pipelineStep cfg) (.init cfg) s

/-! ## What a step can do

The inversion of `pipelineStep`: one case per branch, with its guard. A task is
found by what stands before and after it. -/

inductive PipelineMove (s : PipelineState) : PipelineState → Prop where
  | walkerSend {slot : UInt64} {todo : List UInt64} (hwalker : s.walker = .walking (slot :: todo))
      (hroom : s.slots.length < cfg.slotsBound) :
      PipelineMove s { s with walker := .walking todo, slots := s.slots ++ [slot] }
  | walkerRefused {todo : List UInt64} (hwalker : s.walker = .walking todo)
      (hgone : s.fetcher = .returned) : PipelineMove s { s with walker := .returned }
  | walkerReturn (hwalker : s.walker = .walking []) :
      PipelineMove s { s with walker := .returned }
  | fetcherReceive {slot : UInt64} {slots : List UInt64} (hfetcher : s.fetcher = .receiving)
      (hslots : s.slots = slot :: slots) :
      PipelineMove s { s with fetcher := .acquiring slot, slots }
  | fetcherClosed (hfetcher : s.fetcher = .receiving) (hslots : s.slots = [])
      (hwalker : s.walker = .returned) : PipelineMove s { s with fetcher := .joining }
  | fetcherSpawn {slot : UInt64} (hfetcher : s.fetcher = .acquiring slot)
      (hpermit : 0 < s.permits) :
      PipelineMove s
        { s with
          fetcher := .receiving
          permits := s.permits - 1
          tasks := s.tasks ++ [.fetching slot] }
  | fetcherReturn (hfetcher : s.fetcher = .joining) (htasks : s.tasks = []) :
      PipelineMove s { s with fetcher := .returned }
  | fetcherJoin {pre post : List FetchTask} (hfetcher : s.fetcher = .joining)
      (htasks : s.tasks = pre ++ .finished :: post) :
      PipelineMove s { s with tasks := pre ++ post }
  | taskFetched {slot : UInt64} {pre post : List FetchTask}
      (htasks : s.tasks = pre ++ .fetching slot :: post) :
      PipelineMove s { s with tasks := pre ++ .sending slot (cfg.outcome slot) :: post }
  | taskRefused {slot : UInt64} {outcome : BlockFetchOutcome} {pre post : List FetchTask}
      (htasks : s.tasks = pre ++ .sending slot outcome :: post) (hgone : s.parser = .returned) :
      PipelineMove s { s with tasks := pre ++ .sent :: post }
  | taskSend {slot : UInt64} {outcome : BlockFetchOutcome} {pre post : List FetchTask}
      (htasks : s.tasks = pre ++ .sending slot outcome :: post)
      (hroom : s.blocks.length < cfg.blocksBound) :
      PipelineMove s
        { s with tasks := pre ++ .sent :: post, blocks := s.blocks ++ [(slot, outcome)] }
  | taskRelease {pre post : List FetchTask} (htasks : s.tasks = pre ++ .sent :: post) :
      PipelineMove s { s with tasks := pre ++ .released :: post, permits := s.permits + 1 }
  | taskFinish {pre post : List FetchTask} (htasks : s.tasks = pre ++ .released :: post) :
      PipelineMove s { s with tasks := pre ++ .finished :: post }
  | parserReceive {slot : UInt64} {outcome : BlockFetchOutcome}
      {blocks : List (UInt64 × BlockFetchOutcome)} (hparser : s.parser = .receiving)
      (hblocks : s.blocks = (slot, outcome) :: blocks) :
      PipelineMove s
        { s with
          parser := .parsing slot outcome
          blocks
          received := s.received ++ [(slot, outcome)] }
  | parserClosed (hparser : s.parser = .receiving) (hblocks : s.blocks = [])
      (hfetcher : s.fetcher = .returned) (htasks : ∀ t ∈ s.tasks, t = .finished)
      (hmonitor : cfg.monitorChannels = false) : PipelineMove s { s with parser := .returned }
  | parserParsed {slot : UInt64} {outcome : BlockFetchOutcome} {block : ParsedBlock}
      (hparser : s.parser = .parsing slot outcome)
      (hparse : parseOutcome slot outcome = some block) :
      PipelineMove s { s with parser := .sending block }
  | parserSkipped {slot : UInt64} {outcome : BlockFetchOutcome}
      (hparser : s.parser = .parsing slot outcome) (hparse : parseOutcome slot outcome = none) :
      PipelineMove s { s with parser := .receiving }
  | parserRefused {block : ParsedBlock} (hparser : s.parser = .sending block)
      (hgone : s.writer = .returned) : PipelineMove s { s with parser := .returned }
  | parserSend {block : ParsedBlock} (hparser : s.parser = .sending block)
      (hroom : s.parsed.length < cfg.parsedBound) :
      PipelineMove s { s with parser := .receiving, parsed := s.parsed ++ [block] }
  | writerReceive {block : ParsedBlock} {parsed : List ParsedBlock}
      (hwriter : s.writer = .receiving) (hparsed : s.parsed = block :: parsed) :
      PipelineMove s { s with writer := .writing block, parsed }
  | writerClosed (hwriter : s.writer = .receiving) (hparsed : s.parsed = [])
      (hparser : s.parser = .returned) (hmonitor : cfg.monitorChannels = false) :
      PipelineMove s { s with writer := .returned }
  | writerWrite {block : ParsedBlock} (hwriter : s.writer = .writing block) :
      PipelineMove s { s with writer := .receiving, written := s.written ++ [block] }

theorem Walker.eq_returned {w : Walker} (h : w.hasReturned = true) : w = .returned := by
  cases w with
  | walking todo => nomatch h
  | returned => rfl

theorem Fetcher.eq_returned {f : Fetcher} (h : f.hasReturned = true) : f = .returned := by
  cases f with
  | returned => rfl
  | receiving | acquiring | joining => nomatch h

theorem FetchTask.eq_finished {t : FetchTask} (h : t.hasFinished = true) : t = .finished := by
  cases t with
  | finished => rfl
  | fetching | sending | sent | released => nomatch h

theorem ParserStage.eq_returned {p : ParserStage} (h : p.hasReturned = true) : p = .returned := by
  cases p with
  | returned => rfl
  | receiving | parsing | sending => nomatch h

theorem WriterStage.eq_returned {w : WriterStage} (h : w.hasReturned = true) : w = .returned := by
  cases w with
  | returned => rfl
  | receiving | writing => nomatch h

variable {cfg} {s s' : PipelineState}

theorem walkerStep_move (h : walkerStep cfg s = some s') : PipelineMove cfg s s' := by
  unfold walkerStep at h
  split at h
  · rename_i slot todo hwalker
    split at h
    · rename_i hgone
      obtain rfl := Option.some.inj h
      exact .walkerRefused hwalker (Fetcher.eq_returned hgone)
    · split at h
      · rename_i hroom
        obtain rfl := Option.some.inj h
        exact .walkerSend hwalker hroom
      · nomatch h
  · rename_i hwalker
    obtain rfl := Option.some.inj h
    exact .walkerReturn hwalker
  · nomatch h

theorem fetcherStep_move (h : fetcherStep s = some s') : PipelineMove cfg s s' := by
  unfold fetcherStep at h
  split at h
  · rename_i slot slots hfetcher hslots
    obtain rfl := Option.some.inj h
    exact .fetcherReceive hfetcher hslots
  · rename_i hfetcher hslots
    split at h
    · rename_i hwalker
      obtain rfl := Option.some.inj h
      exact .fetcherClosed hfetcher hslots (Walker.eq_returned hwalker)
    · nomatch h
  · rename_i slot hfetcher
    split at h
    · rename_i hpermit
      obtain rfl := Option.some.inj h
      exact .fetcherSpawn hfetcher hpermit
    · nomatch h
  · rename_i hfetcher
    split at h
    · rename_i htasks
      obtain rfl := Option.some.inj h
      exact .fetcherReturn hfetcher (List.isEmpty_iff.mp htasks)
    · nomatch h
  · nomatch h

/-- A task found at an index, as the list around it. -/
theorem tasks_split {tasks : List FetchTask} {i : Nat} {t : FetchTask} (h : tasks[i]? = some t) :
    tasks = tasks.take i ++ t :: tasks.drop (i + 1)
      ∧ (∀ u, tasks.set i u = tasks.take i ++ u :: tasks.drop (i + 1))
      ∧ tasks.eraseIdx i = tasks.take i ++ tasks.drop (i + 1) := by
  obtain ⟨hi, rfl⟩ := List.getElem?_eq_some_iff.mp h
  refine ⟨?_, fun u => List.set_eq_take_append_cons_drop.trans (if_pos hi),
    List.eraseIdx_eq_take_drop_succ tasks i⟩
  rw [← List.drop_eq_getElem_cons hi, List.take_append_drop]

theorem joinStep_move {i : Nat} (h : joinStep i s = some s') : PipelineMove cfg s s' := by
  unfold joinStep at h
  split at h
  · rename_i hfetcher htask
    obtain rfl := Option.some.inj h
    obtain ⟨htasks, -, herase⟩ := tasks_split htask
    rw [herase]
    exact .fetcherJoin hfetcher htasks
  · nomatch h

theorem taskStep_move {i : Nat} (h : taskStep cfg i s = some s') : PipelineMove cfg s s' := by
  unfold taskStep at h
  split at h
  · rename_i slot htask
    obtain rfl := Option.some.inj h
    obtain ⟨htasks, hset, -⟩ := tasks_split htask
    rw [hset]
    exact .taskFetched htasks
  · rename_i slot outcome htask
    obtain ⟨htasks, hset, -⟩ := tasks_split htask
    rw [hset] at h
    split at h
    · rename_i hgone
      obtain rfl := Option.some.inj h
      exact .taskRefused htasks (ParserStage.eq_returned hgone)
    · split at h
      · rename_i hroom
        obtain rfl := Option.some.inj h
        exact .taskSend htasks hroom
      · nomatch h
  · rename_i htask
    obtain rfl := Option.some.inj h
    obtain ⟨htasks, hset, -⟩ := tasks_split htask
    rw [hset]
    exact .taskRelease htasks
  · rename_i htask
    obtain rfl := Option.some.inj h
    obtain ⟨htasks, hset, -⟩ := tasks_split htask
    rw [hset]
    exact .taskFinish htasks
  · nomatch h

theorem parserStep_move (h : parserStep cfg s = some s') : PipelineMove cfg s s' := by
  unfold parserStep at h
  split at h
  · rename_i slot outcome blocks hparser hblocks
    obtain rfl := Option.some.inj h
    exact .parserReceive hparser hblocks
  · rename_i hparser hblocks
    split at h
    · rename_i hclosed
      obtain rfl := Option.some.inj h
      simp only [PipelineState.blocksClosed, Bool.and_eq_true, List.all_eq_true,
        Bool.not_eq_eq_eq_not, Bool.not_true] at hclosed
      obtain ⟨⟨hfetcher, htasks⟩, hmonitor⟩ := hclosed
      exact .parserClosed hparser hblocks (Fetcher.eq_returned hfetcher)
        (fun t ht => FetchTask.eq_finished (htasks t ht)) hmonitor
    · nomatch h
  · rename_i slot outcome hparser
    split at h
    · rename_i block hparse
      obtain rfl := Option.some.inj h
      exact .parserParsed hparser hparse
    · rename_i hparse
      obtain rfl := Option.some.inj h
      exact .parserSkipped hparser hparse
  · rename_i block hparser
    split at h
    · rename_i hgone
      obtain rfl := Option.some.inj h
      exact .parserRefused hparser (WriterStage.eq_returned hgone)
    · split at h
      · rename_i hroom
        obtain rfl := Option.some.inj h
        exact .parserSend hparser hroom
      · nomatch h
  · nomatch h

theorem writerStep_move (h : writerStep cfg s = some s') : PipelineMove cfg s s' := by
  unfold writerStep at h
  split at h
  · rename_i block parsed hwriter hparsed
    obtain rfl := Option.some.inj h
    exact .writerReceive hwriter hparsed
  · rename_i hwriter hparsed
    split at h
    · rename_i hclosed
      obtain rfl := Option.some.inj h
      simp only [PipelineState.parsedClosed, Bool.and_eq_true, Bool.not_eq_eq_eq_not,
        Bool.not_true] at hclosed
      exact .writerClosed hwriter hparsed (ParserStage.eq_returned hclosed.1) hclosed.2
    · nomatch h
  · rename_i block hwriter
    obtain rfl := Option.some.inj h
    exact .writerWrite hwriter
  · nomatch h

theorem pipelineStep_move {a : PipelineAction} (h : pipelineStep cfg a s = some s') :
    PipelineMove cfg s s' := by
  cases a with
  | walker => exact walkerStep_move h
  | fetcher => exact fetcherStep_move h
  | join i => exact joinStep_move h
  | task i => exact taskStep_move h
  | parser => exact parserStep_move h
  | writer => exact writerStep_move h

/-- To show an invariant, show it of the start and of every move. -/
theorem PipelineReachable.invariant {P : PipelineState → Prop} (h : PipelineReachable cfg s)
    (hstart : P (.init cfg)) (hmove : ∀ {s s'}, P s → PipelineMove cfg s s' → P s') : P s :=
  Transition.Reachable.invariant h hstart fun hs hstep => hmove hs (pipelineStep_move hstep)

end Astralane
