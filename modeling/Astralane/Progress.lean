import Mathlib.Algebra.GroupWithZero.Nat
import Astralane.Backpressure

/-!
# The pipeline comes to its end

Every move hands something on: a slot to the next queue or stage, a stage to its
return. `PipelineState.remaining` prices what is still to be done, every move
lowers it (`remaining_move`), so no run goes on for ever and the question is in
which states it can come to rest.

A state at rest is read off backwards, each stage from what the next one waits
for: the writer waits only for the parser, so the parsed channel has room and
the parser never waits to send; so the tasks never do, and all have given their
permits back; so the fetcher never waits for one and has joined them. Then
nobody but the `MONITOR_CHANNELS` probes can hold a sender of the two later
channels, and whether the parser and the writer return is decided by them alone.
-/

namespace Astralane

variable {cfg : PipelineConfig} {s s' : PipelineState}

/-! ## Remaining work

The weights fall by one from place to place along the way of a slot; a task in
`sending` answers for two things, its own end and the block it sends on. -/

def Walker.remaining : Walker → Nat
  | .walking todo => 13 * todo.length + 1
  | .returned => 0

def Fetcher.remaining : Fetcher → Nat
  | .receiving => 2
  | .acquiring _ => 13
  | .joining => 1
  | .returned => 0

def FetchTask.remaining : FetchTask → Nat
  | .fetching _ => 10
  | .sending _ _ => 9
  | .sent => 3
  | .released => 2
  | .finished => 1

def ParserStage.remaining : ParserStage → Nat
  | .receiving => 1
  | .parsing _ _ => 5
  | .sending _ => 4
  | .returned => 0

def WriterStage.remaining : WriterStage → Nat
  | .receiving => 1
  | .writing _ => 2
  | .returned => 0

def PipelineState.remaining (s : PipelineState) : Nat :=
  s.walker.remaining + 12 * s.slots.length + s.fetcher.remaining
    + (s.tasks.map FetchTask.remaining).sum + 5 * s.blocks.length + s.parser.remaining
    + 2 * s.parsed.length + s.writer.remaining

theorem remaining_move (hmove : PipelineMove cfg s s') : s'.remaining < s.remaining := by
  unfold PipelineState.remaining
  cases hmove with
  | walkerSend hwalker hroom =>
      simp only [hwalker, Walker.remaining, List.length_append, List.length_cons, List.length_nil]
      omega
  | walkerRefused hwalker hgone | walkerReturn hwalker =>
      simp only [hwalker, Walker.remaining]
      omega
  | fetcherReceive hfetcher hslots =>
      simp only [hfetcher, hslots, Fetcher.remaining, List.length_cons]
      omega
  | fetcherClosed hfetcher | fetcherReturn hfetcher =>
      simp only [hfetcher, Fetcher.remaining]
      omega
  | fetcherSpawn hfetcher hpermit =>
      simp only [hfetcher, Fetcher.remaining, FetchTask.remaining, List.map_append, List.map_cons,
        List.map_nil, List.sum_append, List.sum_cons, List.sum_nil]
      omega
  | fetcherJoin hfetcher htasks =>
      simp only [htasks, FetchTask.remaining, List.map_append, List.map_cons, List.sum_append,
        List.sum_cons]
      omega
  | taskFetched htasks | taskRefused htasks | taskSend htasks | taskRelease htasks
  | taskFinish htasks =>
      simp only [htasks, FetchTask.remaining, List.map_append, List.map_cons, List.sum_append,
        List.sum_cons, List.length_append, List.length_cons, List.length_nil]
      omega
  | parserReceive hparser hblocks =>
      simp only [hparser, hblocks, ParserStage.remaining, List.length_cons]
      omega
  | parserClosed hparser | parserParsed hparser | parserSkipped hparser | parserRefused hparser
  | parserSend hparser =>
      simp only [hparser, ParserStage.remaining, List.length_append, List.length_cons,
        List.length_nil]
      omega
  | writerReceive hwriter hparsed =>
      simp only [hwriter, hparsed, WriterStage.remaining, List.length_cons]
      omega
  | writerClosed hwriter | writerWrite hwriter =>
      simp only [hwriter, WriterStage.remaining]
      omega

theorem remaining_step {a : PipelineAction} (h : pipelineStep cfg a s = some s') :
    s'.remaining < s.remaining :=
  remaining_move (pipelineStep_move h)

/-- Whatever the interleaving, a run has a bounded number of steps. -/
theorem length_pipelineRun_le (cfg : PipelineConfig) {as : List PipelineAction}
    (hrun : Transition.runActions (pipelineStep cfg) as (.init cfg) = some s) :
    as.length ≤ (PipelineState.init cfg).remaining :=
  Nat.le_of_add_right_le (Transition.length_runActions_le remaining_step hrun)

/-! ## States at rest -/

section Stuck

variable (hstuck : Transition.Stuck (pipelineStep cfg) s)
include hstuck

theorem writer_of_stuck :
    s.writer = .returned
      ∨ s.writer = .receiving ∧ s.parsed = [] ∧ s.parsedClosed cfg = false := by
  have h : writerStep cfg s = none := hstuck .writer
  unfold writerStep at h
  split at h
  · nomatch h
  · rename_i hwriter hparsed
    split at h
    · nomatch h
    · rename_i hclosed
      exact Or.inr ⟨hwriter, hparsed, Bool.eq_false_iff.mpr hclosed⟩
  · nomatch h
  · rename_i hwriter
    exact Or.inl hwriter

/-- The parser never rests on a full channel: the writer would receive. -/
theorem parser_of_stuck :
    s.parser = .returned
      ∨ s.parser = .receiving ∧ s.blocks = [] ∧ s.blocksClosed cfg = false := by
  have h : parserStep cfg s = none := hstuck .parser
  unfold parserStep at h
  split at h
  · nomatch h
  · rename_i hparser hblocks
    split at h
    · nomatch h
    · rename_i hclosed
      exact Or.inr ⟨hparser, hblocks, Bool.eq_false_iff.mpr hclosed⟩
  · split at h <;> nomatch h
  · split at h
    · nomatch h
    · rename_i hopen
      split at h
      · nomatch h
      · rename_i hfull
        rcases writer_of_stuck hstuck with hwriter | ⟨-, hparsed, -⟩
        · rw [hwriter] at hopen
          exact absurd rfl hopen
        · rw [hparsed] at hfull
          exact absurd cfg.parsedBound_pos hfull
  · rename_i hparser
    exact Or.inl hparser

/-- Nor does a task: the parser would receive. -/
theorem tasks_of_stuck : ∀ t ∈ s.tasks, t = .finished := by
  intro t ht
  obtain ⟨i, hi⟩ := List.mem_iff_getElem?.mp ht
  have h : taskStep cfg i s = none := hstuck (.task i)
  rw [taskStep, hi] at h
  cases t with
  | fetching slot => nomatch h
  | sending slot outcome =>
      simp only at h
      split at h
      · nomatch h
      · rename_i hopen
        split at h
        · nomatch h
        · rename_i hfull
          rcases parser_of_stuck hstuck with hparser | ⟨-, hblocks, -⟩
          · rw [hparser] at hopen
            exact absurd rfl hopen
          · rw [hblocks] at hfull
            exact absurd cfg.blocksBound_pos hfull
  | sent => nomatch h
  | released => nomatch h
  | finished => rfl

theorem walker_of_stuck : s.walker = .returned ∨ s.slots ≠ [] := by
  have h : walkerStep cfg s = none := hstuck .walker
  unfold walkerStep at h
  split at h
  · split at h
    · nomatch h
    · split at h
      · nomatch h
      · rename_i hfull
        refine Or.inr fun hslots => ?_
        rw [hslots] at hfull
        exact hfull cfg.slotsBound_pos
  · nomatch h
  · rename_i hwalker
    exact Or.inl hwalker

/-- The fetcher waits neither for a slot nor for a permit nor for a task. -/
theorem fetcher_of_stuck (hbp : Backpressure cfg s) (hpermits : 0 < cfg.maxConcurrent) :
    s.fetcher = .returned := by
  have hfinished := tasks_of_stuck hstuck
  have h : fetcherStep s = none := hstuck .fetcher
  unfold fetcherStep at h
  split at h
  · nomatch h
  · rename_i hfetcher hslots
    split at h
    · nomatch h
    · rename_i hwalking
      rcases walker_of_stuck hstuck with hwalker | hqueue
      · rw [hwalker] at hwalking
        exact absurd rfl hwalking
      · exact absurd hslots hqueue
  · split at h
    · nomatch h
    · rename_i hnone
      have hheld : s.tasks.countP FetchTask.holdsPermit = 0 := by
        rw [List.countP_eq_zero]
        intro t ht
        rw [hfinished t ht]
        exact Bool.false_ne_true
      have hall := hbp.permits
      omega
  · rename_i hfetcher
    split at h
    · nomatch h
    · rename_i htasks
      obtain ⟨t, rest, htasks⟩ := List.exists_cons_of_ne_nil (mt List.isEmpty_iff.mpr htasks)
      have hjoin : joinStep 0 s = none := hstuck (.join 0)
      rw [joinStep, hfetcher, htasks, hfinished t (htasks ▸ List.mem_cons_self)] at hjoin
      nomatch hjoin
  · rename_i hfetcher
    exact hfetcher

end Stuck

/-! ## The end -/

/-- All stages returned, all channels empty, all slots handled. -/
structure PipelineState.Ended (cfg : PipelineConfig) (s : PipelineState) : Prop
    extends s.Completed where
  slots : s.slots = []
  blocks : s.blocks = []
  parsed : s.parsed = []
  handled : HandledOnce cfg s

/-- Wherever a run comes to rest, it has come to its end. -/
def PipelineConfig.Completes (cfg : PipelineConfig) : Prop :=
  ∀ s, PipelineReachable cfg s → Transition.Stuck (pipelineStep cfg) s → s.Ended cfg

theorem ended_of_completed (hinv : PipelineInv cfg s) (hdone : s.Completed) : s.Ended cfg where
  toCompleted := hdone
  slots := (hinv.slots_closed (Or.inr hdone.fetcher)).2
  blocks := (hinv.blocks_closed hdone.parser).2
  parsed := (hinv.parsed_closed hdone.writer).2
  handled := handledOnce_of_completed hinv hdone

/-- Without the probes the senders left are none, so parser and writer return. -/
theorem completed_of_stuck (hinv : PipelineInv cfg s) (hbp : Backpressure cfg s)
    (hpermits : 0 < cfg.maxConcurrent) (hmonitor : cfg.monitorChannels = false)
    (hstuck : Transition.Stuck (pipelineStep cfg) s) : s.Completed := by
  have hfetcher := fetcher_of_stuck hstuck hbp hpermits
  have hparser : s.parser = .returned := by
    rcases parser_of_stuck hstuck with h | ⟨-, -, hopen⟩
    · exact h
    · have hclosed : s.blocksClosed cfg = true := by
        rw [PipelineState.blocksClosed, hfetcher, hinv.tasks_joined hfetcher, hmonitor]
        rfl
      rw [hclosed] at hopen
      cases hopen
  have hwriter : s.writer = .returned := by
    rcases writer_of_stuck hstuck with h | ⟨-, -, hopen⟩
    · exact h
    · have hclosed : s.parsedClosed cfg = true := by
        rw [PipelineState.parsedClosed, hparser, hmonitor]
        rfl
      rw [hclosed] at hopen
      cases hopen
  exact ⟨(hinv.slots_closed (Or.inr hfetcher)).1, hfetcher, hparser, hwriter⟩

/-- The probes keep both later channels open. -/
theorem monitored_stages_open (hmonitor : cfg.monitorChannels = true)
    (hreach : PipelineReachable cfg s) : s.parser ≠ .returned ∧ s.writer ≠ .returned := by
  refine hreach.invariant (P := fun s => s.parser ≠ .returned ∧ s.writer ≠ .returned)
    ⟨nofun, nofun⟩ ?_
  intro s s' hopen hmove
  cases hmove with
  | parserReceive | parserParsed | parserSkipped | parserSend => exact ⟨nofun, hopen.2⟩
  | parserClosed hparser hblocks hfetcher htasks hoff => exact absurd hoff (by simp [hmonitor])
  | parserRefused hparser hgone => exact absurd hgone hopen.2
  | writerReceive | writerWrite => exact ⟨hopen.1, nofun⟩
  | writerClosed hwriter hparsed hparser hoff => exact absurd hoff (by simp [hmonitor])
  | _ => exact hopen

/-- With at least one permit the pipeline completes, whatever the slots, their
answers, the capacities and the interleaving, if and only if `MONITOR_CHANNELS`
is not set: with it every run comes to rest before the parser returns. -/
theorem completes_iff (cfg : PipelineConfig) (hpermits : 0 < cfg.maxConcurrent) :
    cfg.Completes ↔ cfg.monitorChannels = false := by
  constructor
  · intro hcompletes
    rw [Bool.eq_false_iff]
    intro hmonitor
    have hstart : PipelineReachable cfg (.init cfg) := Transition.Reachable.start
    obtain ⟨s, hreach, hstuck⟩ := Transition.Reachable.exists_stuck remaining_step hstart
    exact (monitored_stages_open hmonitor hreach).1 (hcompletes s hreach hstuck).parser
  · intro hmonitor s hreach hstuck
    have hinv := pipelineInv_of_reachable hreach
    exact ended_of_completed hinv
      (completed_of_stuck hinv (backpressure_of_reachable hreach) hpermits hmonitor hstuck)

theorem completes_iff_tight : tightConfig.Completes ↔ tightConfig.monitorChannels = false :=
  completes_iff tightConfig Nat.one_pos

/-- One skipped slot, with the probes running. -/
def monitoredConfig : PipelineConfig where
  slotsBound := 1
  blocksBound := 1
  parsedBound := 1
  maxConcurrent := 1
  slotsBound_pos := Nat.one_pos
  blocksBound_pos := Nat.one_pos
  parsedBound_pos := Nat.one_pos
  startSlot := 7
  endSlot := 7
  outcome _ := .skipped
  monitorChannels := true

def monitoredRun : List PipelineAction :=
  [.walker, .walker, .fetcher, .fetcher, .fetcher, .task 0, .task 0, .task 0, .task 0, .join 0,
   .fetcher, .parser, .parser, .parser, .writer, .writer]

/-- The slot is written, and parser and writer wait for ever. -/
def monitoredRest : PipelineState where
  walker := .returned
  slots := []
  fetcher := .returned
  permits := 1
  tasks := []
  blocks := []
  parser := .receiving
  parsed := []
  writer := .receiving
  received := [(7, .skipped)]
  written := [⟨7, none, none, true, []⟩]

theorem monitored_never_completes :
    Transition.runActions (pipelineStep monitoredConfig) monitoredRun (.init monitoredConfig)
        = some monitoredRest
      ∧ Transition.Stuck (pipelineStep monitoredConfig) monitoredRest
      ∧ ¬monitoredConfig.Completes := by
  have hrun : Transition.runActions (pipelineStep monitoredConfig) monitoredRun
      (.init monitoredConfig) = some monitoredRest := rfl
  have hstuck : Transition.Stuck (pipelineStep monitoredConfig) monitoredRest := by
    intro a
    cases a <;> rfl
  refine ⟨hrun, hstuck, fun hcompletes => ?_⟩
  have hended := hcompletes monitoredRest (Transition.Reachable.run .start hrun) hstuck
  nomatch hended.parser

end Astralane
