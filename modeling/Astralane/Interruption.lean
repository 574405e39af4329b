import Astralane.Backpressure
import Astralane.Load
import Astralane.Rpc

/-!
# Interrupted runs

What a run of the pipeline has done to the database when it stops, at its end
or anywhere before, and what several runs come to together.

The database of a state is that of the `write_block` calls so far, one SQLite
transaction each, so a stop falls between two of them. Three things follow for
any interleaving: a block is stored whole or not at all (`blocks_stored_whole`);
the slots are taken up in ascending order, so behind the furthest one only as
many can be missing as the channels and permits hold (`missing_behind_bounded`);
and runs that stop anywhere and fail where they may add up to one sequential
pass (`interrupted_runs_converge`).
-/

namespace Astralane

variable (json : StringListJson)

/-- The database of a run that found `db`. -/
def PipelineState.database (db : Db) (s : PipelineState) : Db :=
  runBlocking json db s.written

def PipelineConfig.emitted (cfg : PipelineConfig) (slot : UInt64) : Option ParsedBlock :=
  parseOutcome slot (cfg.outcome slot)

variable {cfg : PipelineConfig} {s s' : PipelineState}

/-- No move but a write touches the database, and a write is one `write_block`. -/
theorem database_move (db : Db) (hmove : PipelineMove cfg s s') :
    s'.database json db = s.database json db
      ∨ ∃ block, s.writer = .writing block
        ∧ writeBlock json (s.database json db) block = .ok (s'.database json db) := by
  cases hmove with
  | writerWrite hwriter =>
      rename_i block
      refine Or.inr ⟨block, hwriter, ?_⟩
      rw [writeBlock_eq, PipelineState.database, PipelineState.database, runBlocking_append,
        runBlocking_eq json _ [block]]
  | _ => exact Or.inl rfl

/-! ## What was written -/

section Written

variable (hinv : PipelineInv cfg s)
include hinv

theorem written_sublist :
    s.written.Sublist ((s.received.map (·.1)).filterMap cfg.emitted) := by
  have hreceived : s.received.filterMap parsePair
      = (s.received.map (·.1)).filterMap cfg.emitted := by
    conv => lhs; rw [received_eq_map hinv]
    exact List.filterMap_map
  rw [← hreceived, hinv.delivered, List.append_assoc, List.append_assoc]
  exact List.sublist_append_left _ _

/-- A written block is what the parser made of the answer for a slot of the range. -/
theorem written_emitted {b : ParsedBlock} (hb : b ∈ s.written) :
    b.slot ∈ slotRange cfg.startSlot cfg.endSlot ∧ cfg.emitted b.slot = some b := by
  obtain ⟨slot, hslot, hemit⟩ := List.mem_filterMap.mp ((written_sublist hinv).subset hb)
  have hsame : b.slot = slot := parseOutcome_slot hemit
  refine ⟨hinv.accounted.mem_iff.mp ?_, hsame ▸ hemit⟩
  rw [hsame]
  exact List.mem_append_right _ hslot

end Written

/-! ## A block is stored whole or not at all -/

/-- Every row that `b` leaves in an empty database is in `db`. -/
structure Db.Holds (db : Db) (b : ParsedBlock) : Prop where
  blocks : ∀ r ∈ (Db.empty.ingest json [b]).blocks.rows, r ∈ db.blocks.rows
  transactions : ∀ r ∈ (Db.empty.ingest json [b]).transactions.rows, r ∈ db.transactions.rows
  accountLocks : ∀ r ∈ (Db.empty.ingest json [b]).accountLocks.rows, r ∈ db.accountLocks.rows
  tokenBalances : ∀ r ∈ (Db.empty.ingest json [b]).tokenBalances.rows, r ∈ db.tokenBalances.rows

/-- No row of `db` is under the slot of `b` or under a signature of it. -/
structure Db.Lacks (db : Db) (b : ParsedBlock) : Prop where
  blocks : ∀ r ∈ db.blocks.rows, r.slot ≠ asI64 b.slot
  transactions : ∀ r ∈ db.transactions.rows,
    r.slot ≠ asI64 b.slot ∧ ∀ t ∈ b.transactions, r.signature ≠ t.signature
  accountLocks : ∀ r ∈ db.accountLocks.rows, ∀ t ∈ b.transactions, r.signature ≠ t.signature
  tokenBalances : ∀ r ∈ db.tokenBalances.rows, ∀ t ∈ b.transactions, r.signature ≠ t.signature

/-- No signature is in the blocks of two slots. -/
def OneBlockPerSignature (outcome : UInt64 → BlockFetchOutcome) : Prop :=
  ∀ b c, parseOutcome b.slot (outcome b.slot) = some b →
    parseOutcome c.slot (outcome c.slot) = some c →
    ∀ t ∈ b.transactions, ∀ u ∈ c.transactions, t.signature = u.signature → b = c

section Whole

variable {outcome : UInt64 → BlockFetchOutcome} (hone : OneBlockPerSignature outcome)
  {ws : List ParsedBlock} (hws : ∀ c ∈ ws, parseOutcome c.slot (outcome c.slot) = some c)
  {b : ParsedBlock} (hb : parseOutcome b.slot (outcome b.slot) = some b)
include hone hws hb

omit hone in
theorem eq_of_shared_slot {c : ParsedBlock} (hc : c ∈ ws)
    (hslot : asI64 c.slot = asI64 b.slot) : c = b := by
  have hparsed := hws c hc
  rw [asI64_inj.mp hslot, hb] at hparsed
  exact (Option.some.inj hparsed).symm

theorem holds_of_mem (hmem : b ∈ ws) : (Db.empty.ingest json ws).Holds json b := by
  have howner : ∀ {ρ κ : Type} (key : ρ → κ) (R : ParsedBlock → List ρ),
      (∀ c ∈ ws, ∀ r ∈ R b, ∀ s ∈ R c, key r = key s →
        ∃ t ∈ b.transactions, ∃ u ∈ c.transactions, t.signature = u.signature) →
      ∀ c ∈ ws, ∀ r ∈ R b, ∀ s ∈ R c, key r = key s → c = b := by
    intro ρ κ key R hshare c hc r hr s hs hkey
    obtain ⟨t, ht, u, hu, hsig⟩ := hshare c hc r hr s hs hkey
    exact (hone b c hb (hws c hc) t ht u hu hsig).symm
  have hrows : ∀ us : List ParsedBlock,
      us.map (·.blocksRow) = us.flatMap fun b => [b.blocksRow] := fun us => List.map_eq_flatMap
  constructor
  · intro r hr
    simp only [Db.ingest, hrows, List.flatMap_singleton] at hr ⊢
    refine Keyed.mem_insertAll_flatMap_of_owner hmem (fun c hc r hr s hs hkey => ?_) hr
    obtain rfl := List.mem_singleton.mp hr
    obtain rfl := List.mem_singleton.mp hs
    exact eq_of_shared_slot hws hb hc hkey.symm
  · intro r hr
    simp only [Db.ingest, List.flatMap_singleton] at hr ⊢
    refine Keyed.mem_insertAll_flatMap_of_owner hmem (howner _ _ fun c hc r hr s hs hkey => ?_) hr
    obtain ⟨t, ht, rfl⟩ := (mem_transactionsRows json).mp hr
    obtain ⟨u, hu, rfl⟩ := (mem_transactionsRows json).mp hs
    exact ⟨t, ht, u, hu, hkey⟩
  · intro r hr
    simp only [Db.ingest, List.flatMap_singleton] at hr ⊢
    refine Keyed.mem_insertAll_flatMap_of_owner hmem (howner _ _ fun c hc r hr s hs hkey => ?_) hr
    obtain ⟨t, ht, hrt⟩ := signature_of_accountLocksRows hr
    obtain ⟨u, hu, hsu⟩ := signature_of_accountLocksRows hs
    exact ⟨t, ht, u, hu, hrt.trans ((congrArg Prod.fst hkey).trans hsu.symm)⟩
  · intro r hr
    simp only [Db.ingest, List.flatMap_singleton] at hr ⊢
    refine Keyed.mem_insertAll_flatMap_of_owner hmem (howner _ _ fun c hc r hr s hs hkey => ?_) hr
    obtain ⟨t, ht, hrt⟩ := signature_of_tokenBalancesRows hr
    obtain ⟨u, hu, hsu⟩ := signature_of_tokenBalancesRows hs
    exact ⟨t, ht, u, hu, hrt.trans ((congrArg Prod.fst hkey).trans hsu.symm)⟩

/-- A row comes from a written block, and shares nothing with another. -/
theorem lacks_of_not_mem (hmem : b ∉ ws) : (Db.empty.ingest json ws).Lacks b := by
  have hsig : ∀ c ∈ ws, ∀ u ∈ c.transactions, ∀ t ∈ b.transactions,
      u.signature ≠ t.signature := fun c hc u hu t ht heq =>
    hmem (hone c b (hws c hc) hb u hu t ht heq ▸ hc)
  have hslot : ∀ c ∈ ws, asI64 c.slot ≠ asI64 b.slot := fun c hc heq =>
    hmem (eq_of_shared_slot hws hb hc heq ▸ hc)
  constructor
  · intro r hr
    rcases Keyed.mem_insertAll hr with hr | ⟨-, hr⟩
    · nomatch hr
    · obtain ⟨c, hc, rfl⟩ := List.mem_map.mp hr
      exact hslot c hc
  · intro r hr
    rcases Keyed.mem_insertAll hr with hr | ⟨-, hr⟩
    · nomatch hr
    · obtain ⟨c, hc, hr⟩ := List.mem_flatMap.mp hr
      obtain ⟨u, hu, rfl⟩ := (mem_transactionsRows json).mp hr
      exact ⟨hslot c hc, hsig c hc u hu⟩
  · intro r hr t ht
    rcases Keyed.mem_insertAll hr with hr | ⟨-, hr⟩
    · nomatch hr
    · obtain ⟨c, hc, hr⟩ := List.mem_flatMap.mp hr
      obtain ⟨u, hu, hru⟩ := signature_of_accountLocksRows hr
      exact hru ▸ hsig c hc u hu t ht
  · intro r hr t ht
    rcases Keyed.mem_insertAll hr with hr | ⟨-, hr⟩
    · nomatch hr
    · obtain ⟨c, hc, hr⟩ := List.mem_flatMap.mp hr
      obtain ⟨u, hu, hru⟩ := signature_of_tokenBalancesRows hr
      exact hru ▸ hsig c hc u hu t ht

end Whole

/-- In every state of a run on an empty database, and so after a crash anywhere
and for a reader at any time: each block the range can deliver is in the tables
with all its rows, or with none. -/
theorem blocks_stored_whole (cfg : PipelineConfig) (s : PipelineState)
    (hone : OneBlockPerSignature cfg.outcome) (hreach : PipelineReachable cfg s) (b : ParsedBlock)
    (hb : cfg.emitted b.slot = some b) :
    b ∈ s.written ∧ (s.database json Db.empty).Holds json b
      ∨ b ∉ s.written ∧ (s.database json Db.empty).Lacks b := by
  have hinv := pipelineInv_of_reachable hreach
  have hws : ∀ c ∈ s.written, cfg.emitted c.slot = some c :=
    fun c hc => (written_emitted hinv hc).2
  rw [PipelineState.database, runBlocking_eq]
  by_cases hmem : b ∈ s.written
  · exact Or.inl ⟨hmem, holds_of_mem json hone hws hb hmem⟩
  · exact Or.inr ⟨hmem, lacks_of_not_mem json hone hws hb hmem⟩

/-- Slot 5 has a block, and every other slot is skipped. -/
def oneBlockChain (slot : UInt64) : BlockFetchOutcome :=
  if slot = 5 then .fetched rawBlock else .skipped

theorem parseOutcome_oneBlockChain {slot : UInt64} {b : ParsedBlock}
    (hb : parseOutcome slot (oneBlockChain slot) = some b) :
    slot = 5 ∧ b = parsedBlock ∨ slot ≠ 5 ∧ b.transactions = [] := by
  unfold oneBlockChain at hb
  split at hb
  · rename_i hslot
    subst hslot
    exact Or.inl ⟨rfl, (Option.some.inj hb).symm⟩
  · rename_i hslot
    exact Or.inr ⟨hslot, congrArg ParsedBlock.transactions (Option.some.inj hb).symm⟩

theorem oneBlockChain_oneBlockPerSignature : OneBlockPerSignature oneBlockChain := by
  intro b c hb hc t ht u hu _
  rcases parseOutcome_oneBlockChain hb with ⟨-, rfl⟩ | ⟨-, hempty⟩
  · rcases parseOutcome_oneBlockChain hc with ⟨-, rfl⟩ | ⟨-, hempty⟩
    · rfl
    · rw [hempty] at hu
      nomatch hu
  · rw [hempty] at ht
    nomatch ht

/-- The pipeline over such slots, through channels of capacity one. -/
def oneBlockConfig (startSlot endSlot : UInt64) : PipelineConfig where
  slotsBound := 1
  blocksBound := 1
  parsedBound := 1
  maxConcurrent := 1
  slotsBound_pos := Nat.one_pos
  blocksBound_pos := Nat.one_pos
  parsedBound_pos := Nat.one_pos
  startSlot
  endSlot
  outcome := oneBlockChain
  monitorChannels := false

/-- The run stops in the `write_block` of the second slot. -/
def crashRun : List PipelineAction :=
  fetchActions 0 ++ [.parser, .parser, .parser, .writer, .writer]
    ++ fetchActions 1 ++ [.parser, .parser, .parser, .writer]

def crashState : PipelineState where
  walker := .walking []
  slots := []
  fetcher := .receiving
  permits := 1
  tasks := [.released, .released]
  blocks := []
  parser := .receiving
  parsed := []
  writer := .writing ⟨6, none, none, true, []⟩
  received := [(5, .fetched rawBlock), (6, .skipped)]
  written := [parsedBlock]

theorem crashState_reachable : PipelineReachable (oneBlockConfig 5 6) crashState := by
  have hrun : Transition.runActions (pipelineStep (oneBlockConfig 5 6)) crashRun
      (.init (oneBlockConfig 5 6)) = some crashState := rfl
  exact Transition.Reachable.run .start hrun

theorem blocks_stored_whole_crash :
    parsedBlock ∈ crashState.written
        ∧ (crashState.database .escapeFree Db.empty).Holds .escapeFree parsedBlock
      ∨ parsedBlock ∉ crashState.written
        ∧ (crashState.database .escapeFree Db.empty).Lacks parsedBlock :=
  blocks_stored_whole .escapeFree (oneBlockConfig 5 6) crashState
    oneBlockChain_oneBlockPerSignature crashState_reachable parsedBlock rfl

/-! ## What is missing behind the furthest slot -/

/-- The slots that left the walker's channel are an initial segment of the
range, and are with the tasks, in the channel behind them, or received. -/
def TakenInOrder (cfg : PipelineConfig) (s : PipelineState) : Prop :=
  ∃ taken, taken ++ (s.fetcher.held ++ s.slots ++ s.walker.todo)
      = slotRange cfg.startSlot cfg.endSlot
    ∧ taken.Perm (s.tasks.flatMap FetchTask.held ++ s.blocks.map (·.1) ++ s.received.map (·.1))

theorem TakenInOrder.move (hclosed : Shutdown s) (hmove : PipelineMove cfg s s')
    (h : TakenInOrder cfg s) : TakenInOrder cfg s' := by
  obtain ⟨taken, hsegment, hperm⟩ := h
  cases hmove with
  | walkerSend hwalker hroom =>
      refine ⟨taken, ?_, hperm⟩
      rw [← hsegment, hwalker]
      simp only [Walker.todo, List.append_assoc, List.singleton_append]
  | walkerRefused hwalker hgone =>
      rw [(hclosed.slots_closed (Or.inr hgone)).1] at hwalker
      cases hwalker
  | walkerReturn hwalker =>
      rw [hwalker] at hsegment
      exact ⟨taken, hsegment, hperm⟩
  | fetcherReceive hfetcher hslots =>
      refine ⟨taken, ?_, hperm⟩
      rw [← hsegment, hfetcher, hslots]
      rfl
  | fetcherClosed hfetcher | fetcherReturn hfetcher =>
      rw [hfetcher] at hsegment
      exact ⟨taken, hsegment, hperm⟩
  | fetcherSpawn hfetcher hpermit =>
      rename_i slot
      refine ⟨taken ++ [slot], ?_, ?_⟩
      · rw [← hsegment, hfetcher]
        simp only [Fetcher.held, List.append_assoc, List.nil_append]
      · refine (hperm.append_right [slot]).trans (List.perm_iff_count.mpr fun x => ?_)
        simp only [List.flatMap_append, List.flatMap_singleton, FetchTask.held, List.count_append]
        omega
  | fetcherJoin hfetcher htasks | taskRelease htasks | taskFinish htasks =>
      refine ⟨taken, hsegment, hperm.trans (List.Perm.of_eq ?_)⟩
      simp only [htasks, FetchTask.held, List.flatMap_append, List.flatMap_cons, List.nil_append]
  | taskFetched htasks =>
      refine ⟨taken, hsegment, hperm.trans (List.Perm.of_eq ?_)⟩
      simp only [htasks, FetchTask.held, List.flatMap_append, List.flatMap_cons]
  | taskRefused htasks hgone =>
      have hempty := hclosed.tasks_joined (hclosed.blocks_closed hgone).1
      rw [htasks] at hempty
      simp at hempty
  | taskSend htasks hroom =>
      refine ⟨taken, hsegment, hperm.trans (List.perm_iff_count.mpr fun x => ?_)⟩
      simp only [htasks, FetchTask.held, List.flatMap_append, List.flatMap_cons, List.map_append,
        List.map_cons, List.map_nil, List.count_append, List.count_cons, List.count_nil]
      omega
  | parserReceive hparser hblocks =>
      refine ⟨taken, hsegment, hperm.trans (List.perm_iff_count.mpr fun x => ?_)⟩
      simp only [hblocks, List.map_append, List.map_cons, List.map_nil, List.count_append,
        List.count_cons, List.count_nil]
      omega
  | _ => exact ⟨taken, hsegment, hperm⟩

/-- One run of the program over some range, in whatever state it stopped; the
node it asks is honest about `chain`, and may be down, overloaded or refuse. -/
structure IngestRun (chain : UInt64 → BlockFetchOutcome) where
  cfg : PipelineConfig
  rpc : RpcServer
  state : PipelineState
  honest : rpc.Honest chain
  outcome_eq : ∀ slot, cfg.outcome slot = getBlock rpc slot
  reachable : PipelineReachable cfg state

/-- The database after runs one after the other, from an empty one on. -/
def databaseAfter {chain : UInt64 → BlockFetchOutcome} (runs : List (IngestRun chain)) : Db :=
  runs.foldl (fun db run => run.state.database json db) Db.empty

/-- The purpose of it all: slot by slot, the block of the chain, parsed and written. -/
def sequentialPass (chain : UInt64 → BlockFetchOutcome) (slots : List UInt64) : Db :=
  runBlocking json Db.empty (slots.filterMap fun slot => parseOutcome slot (chain slot))

section Runs

variable {chain : UInt64 → BlockFetchOutcome}

/-- The run has written the block of `slot`, or has come to its end without the
call for the slot failing. -/
def IngestRun.Got (run : IngestRun chain) (slot : UInt64) : Prop :=
  slot ∈ run.state.written.map (·.slot)
    ∨ run.state.Completed ∧ slot ∈ slotRange run.cfg.startSlot run.cfg.endSlot
      ∧ ∀ msg, run.cfg.outcome slot ≠ .failed msg

theorem IngestRun.outcome_of_emitted (run : IngestRun chain) {slot : UInt64} {b : ParsedBlock}
    (hb : run.cfg.emitted slot = some b) : run.cfg.outcome slot = chain slot := by
  rcases getBlock_of_honest run.honest slot with htrue | ⟨msg, hfailed⟩
  · exact (run.outcome_eq slot).trans htrue
  · rw [PipelineConfig.emitted, run.outcome_eq, hfailed] at hb
    nomatch hb

/-- What a run wrote is the chain's, in the run's range. -/
theorem IngestRun.written_of_chain (run : IngestRun chain) {b : ParsedBlock}
    (hb : b ∈ run.state.written) :
    b.slot ∈ slotRange run.cfg.startSlot run.cfg.endSlot
      ∧ parseOutcome b.slot (chain b.slot) = some b := by
  obtain ⟨hrange, hemit⟩ := written_emitted (pipelineInv_of_reachable run.reachable) hb
  refine ⟨hrange, ?_⟩
  rw [← run.outcome_of_emitted hemit]
  exact hemit

/-- What a run got and the parser accepts, it wrote. -/
theorem IngestRun.written_of_got (run : IngestRun chain) {slot : UInt64} {b : ParsedBlock}
    (hgot : run.Got slot) (hb : parseOutcome slot (chain slot) = some b) :
    b ∈ run.state.written := by
  rcases hgot with hwritten | ⟨hdone, hrange, hanswered⟩
  · obtain ⟨c, hc, rfl⟩ := List.mem_map.mp hwritten
    have hsame := (run.written_of_chain hc).2
    rw [hb] at hsame
    exact Option.some.inj hsame ▸ hc
  · have houtcome : run.cfg.outcome slot = chain slot := by
      rcases getBlock_of_honest run.honest slot with htrue | ⟨msg, hfailed⟩
      · exact (run.outcome_eq slot).trans htrue
      · exact absurd ((run.outcome_eq slot).trans hfailed) (hanswered msg)
    have hwritten := written_perm (pipelineInv_of_reachable run.reachable) hdone
    refine hwritten.mem_iff.mpr (List.mem_filterMap.mpr ⟨slot, hrange, ?_⟩)
    rw [houtcome]
    exact hb

theorem databaseAfter_eq (runs : List (IngestRun chain)) :
    databaseAfter json runs = Db.empty.ingest json (runs.flatMap fun run => run.state.written) := by
  unfold databaseAfter
  generalize Db.empty = db
  induction runs generalizing db with
  | nil => rfl
  | cons run runs ih =>
      rw [List.foldl_cons, ih, List.flatMap_cons, Db.ingest_append, PipelineState.database,
        runBlocking_eq]

theorem disjointBlocks_of_chain (hone : OneBlockPerSignature chain) {slots : List UInt64}
    (hnd : slots.Nodup) :
    DisjointBlocks (slots.filterMap fun slot => parseOutcome slot (chain slot)) := by
  have hslots : ((slots.filterMap fun slot => parseOutcome slot (chain slot)).map (·.slot)).Nodup :=
    map_slot_filterMap chain slots ▸ hnd.filter _
  have hparsed : ∀ b ∈ slots.filterMap fun slot => parseOutcome slot (chain slot),
      parseOutcome b.slot (chain b.slot) = some b := by
    intro b hb
    obtain ⟨slot, -, hb⟩ := List.mem_filterMap.mp hb
    exact (parseOutcome_slot hb) ▸ hb
  refine ⟨hslots, List.Pairwise.imp_of_mem (fun {b c} hb hc hne t ht u hu hsig => ?_) hslots.of_map⟩
  exact hne (hone b c (hparsed b hb) (hparsed c hc) t ht u hu hsig)

/-- Where the slots written are those of a list of slots of the chain, the runs
have left what one pass over the list leaves. -/
theorem databaseAfter_sameRows (hone : OneBlockPerSignature chain) {slots : List UInt64}
    (hnd : slots.Nodup) {runs : List (IngestRun chain)}
    (hmem : ∀ b, (∃ run ∈ runs, b ∈ run.state.written)
      ↔ ∃ slot ∈ slots, parseOutcome slot (chain slot) = some b) :
    (databaseAfter json runs).SameRows (sequentialPass json chain slots) := by
  rw [databaseAfter_eq, sequentialPass, runBlocking_eq]
  refine ingest_sameRows json (disjointBlocks_of_chain hone hnd) fun b => ?_
  rw [List.mem_flatMap, List.mem_filterMap]
  exact hmem b

section Within

variable {startSlot endSlot : UInt64} {runs : List (IngestRun chain)}
  (hwithin : ∀ run ∈ runs, startSlot ≤ run.cfg.startSlot ∧ run.cfg.endSlot ≤ endSlot)
include hwithin

theorem run_slots_within :
    ∀ run ∈ runs, ∀ b ∈ run.state.written, b.slot ∈ slotRange startSlot endSlot := by
  intro run hrun b hb
  obtain ⟨hlo, hhi⟩ := hwithin run hrun
  obtain ⟨hstart, hend⟩ := mem_slotRange.mp (run.written_of_chain hb).1
  exact mem_slotRange.mpr ⟨UInt64.le_trans hlo hstart, UInt64.le_trans hend hhi⟩

/-- Once every slot was got, the blocks written are those of the range. -/
theorem mem_written_iff (hgot : ∀ slot ∈ slotRange startSlot endSlot, ∃ run ∈ runs, run.Got slot)
    {b : ParsedBlock} :
    (∃ run ∈ runs, b ∈ run.state.written)
      ↔ ∃ slot ∈ slotRange startSlot endSlot, parseOutcome slot (chain slot) = some b := by
  constructor
  · rintro ⟨run, hrun, hb⟩
    exact ⟨b.slot, run_slots_within hwithin run hrun b hb, (run.written_of_chain hb).2⟩
  · rintro ⟨slot, hslot, hb⟩
    obtain ⟨run, hrun, hrungot⟩ := hgot slot hslot
    exact ⟨run, hrun, run.written_of_got hrungot hb⟩

end Within

end Runs

/-- Runs that stop anywhere, over any parts of a range and with any failed calls,
leave what one sequential pass over the slots they wrote leaves; and once every
slot was got in some run, what one pass over the whole range leaves. -/
theorem interrupted_runs_converge (chain : UInt64 → BlockFetchOutcome)
    (hone : OneBlockPerSignature chain) (startSlot endSlot : UInt64)
    (runs : List (IngestRun chain))
    (hwithin : ∀ run ∈ runs, startSlot ≤ run.cfg.startSlot ∧ run.cfg.endSlot ≤ endSlot) :
    (databaseAfter json runs).SameRows
        (sequentialPass json chain ((slotRange startSlot endSlot).filter fun slot =>
          runs.any fun run => slot ∈ run.state.written.map (·.slot)))
      ∧ ((∀ slot ∈ slotRange startSlot endSlot, ∃ run ∈ runs, run.Got slot) →
          (databaseAfter json runs).SameRows
            (sequentialPass json chain (slotRange startSlot endSlot))) := by
  have hnd := slotRange_nodup startSlot endSlot
  constructor
  · refine databaseAfter_sameRows json hone (hnd.filter _) fun b => ?_
    simp only [List.mem_filter, List.any_eq_true, decide_eq_true_eq]
    constructor
    · rintro ⟨run, hrun, hb⟩
      have hrange := run_slots_within hwithin run hrun b hb
      exact ⟨b.slot, ⟨hrange, run, hrun, List.mem_map_of_mem hb⟩, (run.written_of_chain hb).2⟩
    · rintro ⟨slot, ⟨-, run, hrun, hwritten⟩, hb⟩
      exact ⟨run, hrun, run.written_of_got (Or.inl hwritten) hb⟩
  · exact fun hgot => databaseAfter_sameRows json hone hnd fun b => mem_written_iff hwithin hgot

/-- The slot a request asks for. -/
def requestedSlot (body : Json) : Option Json :=
  (body.get? "params").bind (·.at? 0)

/-- A node that serves the block of slot 5 at once, and of any other slot it
says only at the second attempt that there is none. -/
def busyServer : RpcServer where
  answer body attempt :=
    match requestedSlot body with
    | some (.num (.int 5)) => .response ⟨200, "200 OK"⟩ (.ok ⟨some rawBlock, none⟩)
    | _ =>
        if attempt = 0 then .response ⟨503, "503 Service Unavailable"⟩ (.error "")
        else .response ⟨200, "200 OK"⟩ (.ok ⟨none, none⟩)
  random _ _ := 0

theorem busyServer_reply (slot : UInt64) (attempt : Nat) :
    busyServer.reply (fullParams slot) attempt
      = if slot = 5 then .response ⟨200, "200 OK"⟩ (.ok ⟨some rawBlock, none⟩)
        else if attempt = 0 then .response ⟨503, "503 Service Unavailable"⟩ (.error "")
        else .response ⟨200, "200 OK"⟩ (.ok ⟨none, none⟩) := by
  have hslot : requestedSlot (rpcRequest (fullParams slot)) = some (.num (.int slot.toNat)) := rfl
  by_cases h : slot = 5
  · subst h
    rfl
  · have hne : (slot.toNat : Int) ≠ 5 := fun heq =>
      h (UInt64.toNat_inj.mp (Int.ofNat_inj.mp heq))
    rw [if_neg h, RpcServer.reply, busyServer]
    simp only [hslot]
    split
    · rename_i heq
      exact absurd (JsonNumber.int.inj (Json.num.inj (Option.some.inj heq))) hne
    · rfl

theorem busyServer_delivers (attempt : Nat) :
    (busyServer.reply (fullParams 5) attempt).Delivers rawBlock :=
  ⟨⟨200, "200 OK"⟩, ⟨some rawBlock, none⟩, busyServer_reply 5 attempt, rfl, rfl, rfl⟩

theorem busyServer_honest : busyServer.Honest oneBlockChain := by
  intro slot attempt
  rw [busyServer_reply]
  by_cases hslot : slot = 5
  · subst hslot
    refine ⟨fun v hv => ?_, fun hs => ?_⟩
    · have hout := hv.outcome
      exact congrArg BlockFetchOutcome.fetched (CallOutcome.ok.inj hout)
    · nomatch hs.outcome
  · rw [if_neg hslot, oneBlockChain, if_neg hslot]
    refine ⟨fun v hv => ?_, fun _ => rfl⟩
    have hout := hv.outcome
    split at hout
    · nomatch hout
    · nomatch hout

theorem getBlock_busyServer (slot : UInt64) : oneBlockChain slot = getBlock busyServer slot := by
  by_cases hslot : slot = 5
  · subst hslot
    have hnow : StopsAt busyServer (fullParams 5) 0 0 :=
      .now (Nat.zero_le _) (Or.inr (settled_of_outcome (busyServer_delivers 0).outcome
        fun _ h => CallOutcome.noConfusion h))
    rw [getBlock, getBlockWithParams_of_stopsAt hnow, (busyServer_delivers 0).outcome]
    rfl
  · have hbusy : (busyServer.reply (fullParams slot) 0).TryAgain
        "http status 503 Service Unavailable" := by
      rw [busyServer_reply, if_neg hslot]
      exact Or.inr ⟨_, _, rfl, Or.inl ⟨Or.inl rfl, rfl⟩⟩
    have hskip : (busyServer.reply (fullParams slot) 1).SaysSkipped := by
      rw [busyServer_reply, if_neg hslot]
      exact ⟨_, _, rfl, rfl, Or.inr ⟨rfl, rfl⟩⟩
    have hsecond : StopsAt busyServer (fullParams slot) 0 1 := .retry hbusy
      (.now (by decide) (Or.inr (settled_of_outcome hskip.outcome
        fun _ h => CallOutcome.noConfusion h)))
    rw [getBlock, getBlockWithParams_of_stopsAt hsecond, hskip.outcome, oneBlockChain,
      if_neg hslot]
    rfl

def crashedRun : IngestRun oneBlockChain where
  cfg := oneBlockConfig 5 6
  rpc := busyServer
  state := crashState
  honest := busyServer_honest
  outcome_eq := getBlock_busyServer
  reachable := crashState_reachable

/-- The second run, over what the first left, and to its end. -/
def resumeActions : List PipelineAction :=
  fetchActions 0 ++ [.task 0, .walker, .fetcher, .join 0, .fetcher]
    ++ [.parser, .parser, .parser, .parser, .writer, .writer, .writer]

def resumedState : PipelineState where
  walker := .returned
  slots := []
  fetcher := .returned
  permits := 1
  tasks := []
  blocks := []
  parser := .returned
  parsed := []
  writer := .returned
  received := [(6, .skipped)]
  written := [⟨6, none, none, true, []⟩]

def resumedRun : IngestRun oneBlockChain where
  cfg := oneBlockConfig 6 6
  rpc := busyServer
  state := resumedState
  honest := busyServer_honest
  outcome_eq := getBlock_busyServer
  reachable := by
    have hrun : Transition.runActions (pipelineStep (oneBlockConfig 6 6)) resumeActions
        (.init (oneBlockConfig 6 6)) = some resumedState := rfl
    exact Transition.Reachable.run .start hrun

theorem resumedRuns_within : ∀ run ∈ [crashedRun, resumedRun],
    5 ≤ run.cfg.startSlot ∧ run.cfg.endSlot ≤ 6 := by
  intro run hrun
  rcases List.mem_cons.mp hrun with rfl | hrun
  · exact ⟨by decide, by decide⟩
  · obtain rfl := List.mem_singleton.mp hrun
    exact ⟨by decide, by decide⟩

theorem resumedRuns_got :
    ∀ slot ∈ slotRange 5 6, ∃ run ∈ [crashedRun, resumedRun], run.Got slot := by
  intro slot hslot
  rcases List.mem_cons.mp hslot with rfl | hslot
  · exact ⟨crashedRun, List.mem_cons_self, Or.inl (List.mem_singleton.mpr rfl)⟩
  · obtain rfl := List.mem_singleton.mp hslot
    exact ⟨resumedRun, by simp, Or.inr ⟨⟨rfl, rfl, rfl, rfl⟩, by decide, nofun⟩⟩

theorem interrupted_runs_converge_resumed :
    (databaseAfter .escapeFree [crashedRun, resumedRun]).SameRows
      (sequentialPass .escapeFree oneBlockChain (slotRange 5 6)) :=
  (interrupted_runs_converge .escapeFree oneBlockChain oneBlockChain_oneBlockPerSignature
    5 6 [crashedRun, resumedRun] resumedRuns_within).2 resumedRuns_got

end Astralane
