import Astralane.Interruption
import Astralane.Progress
import Astralane.Trades

/-!
# The start of `main`

What `main` makes of its environment, up to the point where the stages of the
pipeline are spawned. The bounds are constants; the range is read from two
variables, in decimal, and a text that is not a number in range counts as no text
at all.

From there on the pipeline is on its own. Whatever the environment it was started
in, it comes to rest only at its end unless it is monitored, and a range that was
given in full and answered in full is then in the database (`started_range`).
-/

namespace Astralane

/-- `std::env::var(name).ok()`. -/
abbrev Environment := String → Option String

/-- `str::parse::<u64>`: digits, after a plus sign if there is one, in range. -/
def parseU64 (s : String) : Option UInt64 := do
  let n ←
    match s.toList with
    | '+' :: digits => parseDigits digits
    | digits => parseDigits digits
  if n < 2 ^ 64 then some (UInt64.ofNat n) else none

def envU64 (env : Environment) (name : String) (default : UInt64) : UInt64 :=
  ((env name).bind parseU64).getD default

/-! ## `main` -/

namespace Main

def startSlot : UInt64 := 439865000

def endSlot : UInt64 := 439865999

def maxConcurrentFetches : Nat := 10

def channelBound : Nat := 64

def blocksChannelBound : Nat := 4

/-- After how many blocks the writer pauses, and for how many seconds. -/
def pauseAfter (env : Environment) : Except String (Option (UInt64 × UInt64)) :=
  match env "PAUSE_AFTER_BLOCKS", env "PAUSE_SECS" with
  | some n, some s =>
      match parseU64 n with
      | none => .error "PAUSE_AFTER_BLOCKS must be a number"
      | some blocks =>
          match parseU64 s with
          | none => .error "PAUSE_SECS must be a number"
          | some secs => .ok (some (blocks, secs))
  | _, _ => .ok none

/-- The stages and channels over the answers of a node. -/
def pipeline (env : Environment) (rpc : RpcServer) : PipelineConfig where
  slotsBound := channelBound
  blocksBound := blocksChannelBound
  parsedBound := channelBound
  maxConcurrent := maxConcurrentFetches
  slotsBound_pos := by decide
  blocksBound_pos := by decide
  parsedBound_pos := by decide
  startSlot := envU64 env "START_SLOT" startSlot
  endSlot := envU64 env "END_SLOT" endSlot
  outcome := getBlock rpc
  monitorChannels := (env "MONITOR_CHANNELS").isSome

/-- What `main` does once the API server is running. -/
inductive Startup where
  | serverOnly
  | panicked (message : String)
  | ingestion (cfg : PipelineConfig) (pauseAfter : Option (UInt64 × UInt64))

/-- `node` is what answers at a URL. -/
def startup (env : Environment) (node : String → RpcServer) : Startup :=
  if (env "SKIP_INGESTION").isSome then .serverOnly
  else
    match env "RPC_URL" with
    | none =>
        .panicked
          ("RPC_URL environment variable must be set (see README) — no default, to avoid "
            ++ "silently falling back to a rate-limited public endpoint")
    | some url =>
        match pauseAfter env with
        | .error message => .panicked message
        | .ok pause => .ingestion (pipeline env (node url)) pause

end Main

/-! ## The range -/

theorem parseDigits_toDigits (n : Nat) : parseDigits (Nat.toDigits 10 n) = some n := by
  have hne : (Nat.toDigits 10 n).isEmpty = false := by simp [Nat.toDigits_ne_nil]
  have hdigits : (Nat.toDigits 10 n).all Char.isDigit = true :=
    List.all_eq_true.mpr fun c hc => Nat.isDigit_of_mem_toDigits (by decide) (by decide) hc
  have hvalue : (Nat.toDigits 10 n).foldl (fun n c => 10 * n + (c.toNat - 48)) 0 = n :=
    Nat.ofDigitChars_toDigits (b := 10) (by decide) (by decide)
  rw [parseDigits, hne, hdigits, hvalue]
  rfl

theorem parseU64_toString (n : UInt64) : parseU64 (toString n.toNat) = some n := by
  have hlist : (toString n.toNat).toList = Nat.toDigits 10 n.toNat := Nat.toList_repr
  have hplus : ∀ digits, Nat.toDigits 10 n.toNat ≠ '+' :: digits := by
    intro digits heq
    have hplus : ('+' : Char) ∈ Nat.toDigits 10 n.toNat := heq ▸ List.mem_cons_self
    exact absurd (Nat.isDigit_of_mem_toDigits (by decide) (by decide) hplus) (by decide)
  unfold parseU64
  rw [hlist]
  split
  · rename_i digits heq
    exact absurd heq (hplus digits)
  · rw [parseDigits_toDigits]
    show (if n.toNat < 2 ^ 64 then some (UInt64.ofNat n.toNat) else none) = some n
    rw [if_pos n.toNat_lt, UInt64.ofNat_toNat]

theorem envU64_of_eq {env : Environment} {name : String} {n : UInt64}
    (h : env name = some (toString n.toNat)) (default : UInt64) :
    envU64 env name default = n := by
  rw [envU64, h, Option.bind_some, parseU64_toString, Option.getD_some]

/-! ## The run -/

theorem startup_ingestion {env : Environment} {node : String → RpcServer} {cfg : PipelineConfig}
    {pause : Option (UInt64 × UInt64)} (h : Main.startup env node = .ingestion cfg pause) :
    ∃ url, env "RPC_URL" = some url ∧ cfg = Main.pipeline env (node url) := by
  unfold Main.startup at h
  split at h
  · cases h
  · split at h
    · cases h
    · rename_i url hurl
      split at h
      · cases h
      · cases h
        exact ⟨url, hurl, rfl⟩

/-- With a range in its environment and nodes that are honest about `chain`, whichever
of them it was given: unmonitored, `main` comes to rest only at the end of all stages,
and if no call failed the database then has the range as one pass over it leaves it. -/
theorem started_range (json : StringListJson) {env : Environment} {node : String → RpcServer}
    {cfg : PipelineConfig} {pause : Option (UInt64 × UInt64)}
    (hstart : Main.startup env node = .ingestion cfg pause) {startSlot endSlot : UInt64}
    (hfirst : env "START_SLOT" = some (toString startSlot.toNat))
    (hlast : env "END_SLOT" = some (toString endSlot.toNat))
    {chain : UInt64 → BlockFetchOutcome} (hhonest : ∀ url, (node url).Honest chain)
    (hone : OneBlockPerSignature chain) (s : PipelineState) (hreach : PipelineReachable cfg s) :
    (env "MONITOR_CHANNELS" = none → Transition.Stuck (pipelineStep cfg) s → s.Ended cfg)
      ∧ (s.Completed → (∀ slot ∈ slotRange startSlot endSlot, ∀ msg,
            cfg.outcome slot ≠ .failed msg) →
          (s.database json Db.empty).SameRows
            (sequentialPass json chain (slotRange startSlot endSlot))) := by
  obtain ⟨url, -, rfl⟩ := startup_ingestion hstart
  have hinv := pipelineInv_of_reachable hreach
  constructor
  · intro hmonitor hstuck
    have hoff : (Main.pipeline env (node url)).monitorChannels = false := by
      rw [Main.pipeline, hmonitor]
      rfl
    have hpermits : 0 < (Main.pipeline env (node url)).maxConcurrent :=
      show 0 < Main.maxConcurrentFetches by decide
    exact ended_of_completed hinv
      (completed_of_stuck hinv (backpressure_of_reachable hreach) hpermits hoff hstuck)
  · intro hdone hanswered
    have hfrom : (Main.pipeline env (node url)).startSlot = startSlot := envU64_of_eq hfirst _
    have hto : (Main.pipeline env (node url)).endSlot = endSlot := envU64_of_eq hlast _
    let run : IngestRun chain :=
      { cfg := Main.pipeline env (node url)
        rpc := node url
        state := s
        honest := hhonest url
        outcome_eq := fun _ => rfl
        reachable := hreach }
    have hwithin : ∀ r ∈ [run], startSlot ≤ r.cfg.startSlot ∧ r.cfg.endSlot ≤ endSlot := by
      intro r hr
      obtain rfl := List.mem_singleton.mp hr
      exact ⟨hfrom ▸ UInt64.le_refl _, hto ▸ UInt64.le_refl _⟩
    have hgot : ∀ slot ∈ slotRange startSlot endSlot, ∃ r ∈ [run], r.Got slot := by
      intro slot hslot
      refine ⟨run, List.mem_singleton_self run, Or.inr ⟨hdone, ?_, hanswered slot hslot⟩⟩
      show slot ∈ slotRange (Main.pipeline env (node url)).startSlot
        (Main.pipeline env (node url)).endSlot
      rw [hfrom, hto]
      exact hslot
    exact databaseAfter_sameRows json hone (slotRange_nodup startSlot endSlot)
      fun b => mem_written_iff hwithin hgot

/-- The environment of a run over the slots 5 and 6. -/
def twoSlotEnv (name : String) : Option String :=
  if name = "RPC_URL" then some "http://node"
  else if name = "START_SLOT" then some "5"
  else if name = "END_SLOT" then some "6"
  else none

def twoSlotConfig : PipelineConfig where
  slotsBound := 64
  blocksBound := 4
  parsedBound := 64
  maxConcurrent := 10
  slotsBound_pos := by decide
  blocksBound_pos := by decide
  parsedBound_pos := by decide
  startSlot := 5
  endSlot := 6
  outcome := oneBlockChain
  monitorChannels := false

theorem pipeline_twoSlotEnv : Main.pipeline twoSlotEnv busyServer = twoSlotConfig := by
  have houtcome : getBlock busyServer = oneBlockChain :=
    funext fun slot => (getBlock_busyServer slot).symm
  rw [Main.pipeline, houtcome]
  rfl

/-- The later slot is fetched first. -/
def twoSlotActions : List PipelineAction :=
  [.walker, .fetcher, .fetcher, .walker, .fetcher, .fetcher, .walker, .fetcher,
   .task 1, .task 1, .task 1, .task 1, .task 0, .task 0, .task 0, .task 0,
   .join 1, .join 0, .fetcher,
   .parser, .parser, .parser, .parser, .parser, .parser, .parser,
   .writer, .writer, .writer, .writer, .writer]

def twoSlotState : PipelineState where
  walker := .returned
  slots := []
  fetcher := .returned
  permits := 10
  tasks := []
  blocks := []
  parser := .returned
  parsed := []
  writer := .returned
  received := [(6, .skipped), (5, .fetched rawBlock)]
  written := [⟨6, none, none, true, []⟩, parsedBlock]

theorem twoSlotState_reachable : PipelineReachable twoSlotConfig twoSlotState := by
  have hrun : Transition.runActions (pipelineStep twoSlotConfig) twoSlotActions
      (.init twoSlotConfig) = some twoSlotState := rfl
  exact Transition.Reachable.run .start hrun

theorem started_range_twoSlots :
    (twoSlotState.database .escapeFree Db.empty).SameRows
      (sequentialPass .escapeFree oneBlockChain (slotRange 5 6)) := by
  have hstart : Main.startup twoSlotEnv (fun _ => busyServer)
      = .ingestion (Main.pipeline twoSlotEnv busyServer) none := rfl
  have hfirst : twoSlotEnv "START_SLOT" = some (toString (5 : UInt64).toNat) := rfl
  have hlast : twoSlotEnv "END_SLOT" = some (toString (6 : UInt64).toNat) := rfl
  rw [pipeline_twoSlotEnv] at hstart
  refine (started_range .escapeFree hstart hfirst hlast (fun _ => busyServer_honest)
    oneBlockChain_oneBlockPerSignature twoSlotState twoSlotState_reachable).2
      ⟨rfl, rfl, rfl, rfl⟩ ?_
  intro slot _ msg h
  unfold twoSlotConfig oneBlockChain at h
  simp only at h
  split at h
  · cases h
  · cases h

end Astralane
