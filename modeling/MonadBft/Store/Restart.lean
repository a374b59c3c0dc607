/-
  MonadBft.Store.Restart — runs of a node with crashes, as far as its two forkpoint files go
  (`node.Open`, `Builder.Build`, `State.Checkpoint` and the config file commands).

  A start reads the forkpoint and the sets of the epochs it names, or takes the genesis set, and
  the init commands write those sets again, one file write each. While the node runs, a validator
  set update enters its map and is written, and a checkpoint names the epoch of the root and the
  next one, if the node has their sets and knows when they start. A crash is a start at any point
  between two file writes. A panic stops the node, but the events that are queued are handled
  first; the file write of the event that panicked is the only thing that is missing.

  The root is the block tree's, which is not part of this model. A checkpoint that steps back to
  an epoch whose set was dropped, or that is taken by a node that is stopping because it refused
  a set, may name an epoch without a set. Otherwise:
  - `apply_inv`: the sets from the oldest epoch of the last checkpoint on to the last epoch
    written are on disk, and the node knows no others (`Process.Ok`).
  - `forkpoint_loads`: so the forkpoint can be loaded after every prefix of a run, and the set
    stored for an epoch is the last that was written for it.

  `forkpoint_steps_back` is a run with a checkpoint that steps back, and cannot be loaded, and
  `forkpoint_while_stopping` one with a checkpoint of a stopping node.
-/
import MonadBft.Lib.Steps
import MonadBft.Scenario
import MonadBft.Store.Forkpoint

namespace MonadBft

open Lib ConfigFile

structure NodeConfig where
  epochLength : Nat
  epochStartDelay : Nat
  genesisValidators : ValidatorSet

structure Process where
  configFile : ConfigFile
  epochManager : EpochManager
  valEpochMap : ValidatorsEpochMapping
  /-- The sets that the init commands have still to write. -/
  init : List ValidatorSetDataWithEpoch
  /-- A handler has panicked; queued events are still handled. -/
  stopped : Bool

structure Node where
  disk : Disk
  process : Option Process
  /-- Ghost: the sets that were written, the latest first. -/
  written : List ValidatorSetDataWithEpoch

def forkpointGenesis : Checkpoint := ⟨GENESIS_BLOCK_ID, .qc GenesisQC, [⟨GENESIS_EPOCH, GENESIS_ROUND⟩]⟩

def Checkpoint.getEpochStarts (cp : Checkpoint) : AMap Nat Nat :=
  cp.validatorSets.foldl (fun m le => m.insert le.epoch le.round) AMap.empty

/-- `NewEpochManager`; the epochs are distinct, so no start is in conflict. -/
def EpochManager.new (epochLength epochStartDelay : Nat) (knownEpochs : AMap Nat Nat) : EpochManager :=
  ⟨epochLength, epochStartDelay, knownEpochs.entries.foldl (fun l e => insertSorted e l) []⟩

namespace Process

/-- `getLockedEpoch`: the set is known, and the start of the epoch. -/
def getLockedEpoch (p : Process) (epoch : Nat) : Option LockedEpoch :=
  if (p.valEpochMap.get epoch).isNone then none
  else (p.epochManager.getEpochStart epoch).map fun round => ⟨epoch, round⟩

def checkpoint (p : Process) (root : RootInfo) (highCertificate : RoundCertificate) : Except Panic Checkpoint :=
  match p.getLockedEpoch root.epoch with
  | none => .error .checkpointNoValidatorSet
  | some base => .ok ⟨root.blockId, highCertificate, base :: (p.getLockedEpoch (root.epoch + 1)).toList⟩

/-- `Build`: every locked set is in the map before the first one is written. -/
def boot (config : NodeConfig) (d : Disk) (cp : Checkpoint) (locked : List ValidatorSetDataWithEpoch) :
    Except Panic Process := do
  let m ← locked.foldlM (fun (m : ValidatorsEpochMapping) s => m.insertSet s.epoch s.validators) AMap.empty
  return {
    configFile := .loadPersisted d
    epochManager := .new config.epochLength config.epochStartDelay cp.getEpochStarts
    valEpochMap := m
    init := locked
    stopped := false }

end Process

namespace Node

/-- `Open`: `Build` may refuse what was loaded, and then nothing runs. -/
def restart (n : Node) (config : NodeConfig) : Except MissingSet Node := do
  let loaded ← loadPersistedState n.disk
  let (cp, locked) := loaded.getD (forkpointGenesis, [⟨GENESIS_EPOCH, config.genesisValidators⟩])
  return { n with process := (Process.boot config n.disk cp locked).toOption }

def persist (n : Node) (p : Process) (vset : ValidatorSetDataWithEpoch) : Except ConfigFile.EpochGap Node := do
  let (c, d) ← p.configFile.writeValidatorSet n.disk vset
  let skipped := p.configFile.lastValSet.any (vset.epoch ≤ ·.epoch)
  return ⟨d, some { p with configFile := c }, if skipped then n.written else vset :: n.written⟩

inductive Action where
  | restart (config : NodeConfig)
  /-- The next of the init commands. -/
  | initWrite
  | updateValidators (vset : ValidatorSetDataWithEpoch)
  | scheduleEpochStart (blockNum blockRound : Nat)
  | checkpoint (root : RootInfo) (highCertificate : RoundCertificate)

/-- The node after a panic of a handler that left `p` behind. -/
def stop (n : Node) (p : Process) : Node := { n with process := some { p with stopped := true } }

def initWrite (n : Node) (p : Process) : Node :=
  match p.init with
  | [] => n
  | vset :: init =>
    match n.persist { p with init := init } vset with
    | .error _ => { n with process := none }
    | .ok n' => n'

/-- `EvUpdateValidators`: the map first, then the file. -/
def updateValidators (n : Node) (p : Process) (vset : ValidatorSetDataWithEpoch) : Node :=
  match p.valEpochMap.insertSet vset.epoch vset.validators with
  | .error _ => n.stop p
  | .ok m =>
    let p' := { p with valEpochMap := m }
    match n.persist p' vset with
    | .error _ => n.stop p'
    | .ok n' => n'

def scheduleEpochStart (n : Node) (p : Process) (blockNum blockRound : Nat) : Node :=
  match p.epochManager.scheduleEpochStart blockNum blockRound with
  | .error _ => n.stop p
  | .ok em => { n with process := some { p with epochManager := em } }

def checkpoint (n : Node) (p : Process) (root : RootInfo) (highCertificate : RoundCertificate) : Node :=
  match p.checkpoint root highCertificate with
  | .error _ => n.stop p
  | .ok cp =>
    let (c, d) := p.configFile.writeCheckpoint n.disk cp
    { n with disk := d, process := some { p with configFile := c } }

/-- One event of a node. Only a start has to load the forkpoint; the others need a running node,
and the events one whose init commands are done. -/
def apply (n : Node) (a : Action) : Except MissingSet Node :=
  match a, n.process with
  | .restart config, _ => n.restart config
  | _, none => .ok n
  | .initWrite, some p => .ok (n.initWrite p)
  | .scheduleEpochStart blockNum blockRound, some p => .ok (n.scheduleEpochStart p blockNum blockRound)
  | .updateValidators vset, some p => .ok (if p.init = [] then n.updateValidators p vset else n)
  | .checkpoint root hc, some p => .ok (if p.init = [] then n.checkpoint p root hc else n)

def fresh : Node := ⟨⟨none, []⟩, none, []⟩

end Node

/-! ## What is on disk -/

/-- The oldest epoch that is kept on disk. -/
def ConfigFile.floor (c : ConfigFile) : Nat := c.minLocked.getD GENESIS_EPOCH

/-- The epoch of the next set that is written. -/
def ConfigFile.next (c : ConfigFile) : Nat :=
  match c.lastValSet with
  | none => c.floor
  | some last => last.epoch + 1

/-- A checkpoint names an epoch, or two that follow each other. -/
def Checkpoint.Consecutive (cp : Checkpoint) : Prop :=
  ∃ base, cp.validatorSets.map (·.epoch) = [base] ∨ cp.validatorSets.map (·.epoch) = [base, base + 1]

structure Disk.Ok (d : Disk) : Prop where
  covered : d.Covered
  consecutive : ∀ cp, d.forkpoint = some cp → cp.Consecutive

/-- The epochs from the floor on to the last one written are on disk. -/
def ConfigFile.Stored (c : ConfigFile) (d : Disk) : Prop :=
  ∀ last, c.lastValSet = some last → ∀ e, c.floor ≤ e → e ≤ last.epoch → (d.lookup e).isSome

/-- A process and the files it writes: the epochs from the floor to the last one written are on
disk, the init commands write the next ones, and the node knows no sets but these. -/
structure Process.Ok (d : Disk) (p : Process) : Prop where
  current : p.configFile.checkpoint = d.forkpoint
  init : p.init.map (·.epoch) = List.range' p.configFile.next p.init.length
  started : p.configFile.lastValSet = none → p.init ≠ []
  stored : p.configFile.Stored d
  known : p.stopped = false → ∀ e, (p.valEpochMap.get e).isSome → e < p.configFile.next + p.init.length

structure Node.Ok (n : Node) : Prop where
  disk : n.disk.Ok
  process : ∀ p, n.process = some p → p.Ok n.disk
  last : ∀ e s, n.disk.lookup e = some s → n.written.find? (·.epoch = e) = some s

variable {c : ConfigFile} {cp : Checkpoint} {e : Nat}

theorem ConfigFile.minLocked_le (h : c.floor ≤ e) : ∀ n ∈ c.minLocked, n ≤ e := by
  intro n hn
  unfold floor at h
  rw [Option.mem_def.mp hn] at h
  exact h

theorem ConfigFile.floor_eq {base : Nat} (hc : c.checkpoint = some cp)
    (h : cp.validatorSets.map (·.epoch) = [base] ∨ cp.validatorSets.map (·.epoch) = [base, base + 1]) :
    c.floor = base := by
  rcases h with hb | hb
  · simp [floor, minLocked, hc, hb]
  · simp [floor, minLocked, hc, hb, List.min?]

theorem ConfigFile.floor_of_consecutive (hc : c.checkpoint = some cp)
    (h : cp.Consecutive) : cp.validatorSets.map (·.epoch) = [c.floor] ∨
      cp.validatorSets.map (·.epoch) = [c.floor, c.floor + 1] := by
  obtain ⟨base, hb⟩ := h
  rw [floor_eq hc hb]
  exact hb

/-! ## One write -/

section Write

variable {c c' : ConfigFile} {d d' : Disk} {vset : ValidatorSetDataWithEpoch} {e : Nat} {s : ValidatorSetDataWithEpoch}

theorem written_next (hnone : c.lastValSet = none → vset.epoch = c.floor)
    (h : ∀ last, c.lastValSet = some last → vset.epoch = last.epoch + 1) : vset.epoch = c.next := by
  unfold next
  cases hl : c.lastValSet with
  | none => exact hnone hl
  | some last => exact h last hl

theorem covered_merged (hcur : c.checkpoint = d.forkpoint) (hd : d.Ok) :
    Disk.Ok { d with validators := c.merged d vset } := by
  refine ⟨?_, hd.consecutive⟩
  intro cp hcp le hle
  -- what the forkpoint names is not below the floor
  have hmem : le.epoch ∈ cp.validatorSets.map (·.epoch) := List.mem_map_of_mem hle
  have hfloor : c.floor ≤ le.epoch := by
    rcases floor_of_consecutive (hcur.trans hcp) (hd.consecutive cp hcp) with hb | hb
    · rw [hb] at hmem
      simp only [List.mem_singleton] at hmem
      omega
    · rw [hb] at hmem
      simp only [List.mem_cons, List.not_mem_nil, or_false] at hmem
      omega
  show ((byEpoch (c.merged d vset)).get le.epoch).isSome
  rw [merged_get (minLocked_le hfloor)]
  by_cases he : le.epoch = vset.epoch
  · rw [if_pos he]
    rfl
  · rw [if_neg he]
    exact hd.covered cp hcp le hle

theorem stored_merged (hs : c.Stored d) (hnext : vset.epoch = c.next) :
    ConfigFile.Stored { c with lastValSet := some vset } { d with validators := c.merged d vset } := by
  intro last hlast e hfloor he
  obtain rfl : vset = last := Option.some.inj hlast
  replace hfloor : c.floor ≤ e := hfloor
  show ((byEpoch (c.merged d vset)).get e).isSome
  rw [merged_get (minLocked_le hfloor)]
  by_cases heq : e = vset.epoch
  · rw [if_pos heq]
    rfl
  · rw [if_neg heq]
    unfold next at hnext
    cases hl : c.lastValSet with
    | none =>
      rw [hl] at hnext
      dsimp only at hnext
      omega
    | some last =>
      rw [hl] at hnext
      dsimp only at hnext
      exact hs last hl e hfloor (by omega)

structure WriteOk (c c' : ConfigFile) (d' : Disk) (vset : ValidatorSetDataWithEpoch) : Prop where
  disk : d'.Ok
  current : c'.checkpoint = d'.forkpoint
  stored : c'.Stored d'
  some : c'.lastValSet ≠ none
  next : c'.next = max c.next (vset.epoch + 1)

theorem writeValidatorSet_spec (hcur : c.checkpoint = d.forkpoint) (hd : d.Ok) (hs : c.Stored d)
    (hnone : c.lastValSet = none → vset.epoch = c.floor) (h : c.writeValidatorSet d vset = .ok (c', d')) :
    WriteOk c c' d' vset := by
  rcases writeValidatorSet_ok h with ⟨last, hl, hle, rfl, rfl⟩ | ⟨hlast, rfl, rfl⟩
  · refine ⟨hd, hcur, hs, ?_, ?_⟩
    · rw [hl]
      exact Option.some_ne_none last
    · have hnext : c'.next = last.epoch + 1 := by simp [next, hl]
      omega
  · have hnext := written_next hnone hlast
    refine ⟨covered_merged hcur hd, hcur, stored_merged hs hnext, Option.some_ne_none vset, ?_⟩
    show vset.epoch + 1 = _
    omega

end Write

namespace Node

variable {n n' : Node} {p : Process} {a : Action} {vset : ValidatorSetDataWithEpoch}

/-! ## The steps of a run -/

theorem persist_ok (hn : n.Ok) (hcur : p.configFile.checkpoint = n.disk.forkpoint) (hs : p.configFile.Stored n.disk)
    (hnone : p.configFile.lastValSet = none → vset.epoch = p.configFile.floor)
    (hinit : p.init.map (·.epoch) = List.range' (max p.configFile.next (vset.epoch + 1)) p.init.length)
    (hknown : p.stopped = false → ∀ e, (p.valEpochMap.get e).isSome →
      e < max p.configFile.next (vset.epoch + 1) + p.init.length) (h : n.persist p vset = .ok n') : n'.Ok := by
  obtain ⟨⟨c', d'⟩, hw, h⟩ := bind_eq_ok.mp h
  cases h
  obtain ⟨hdisk, hcur', hs', hsome, hnext⟩ := writeValidatorSet_spec hcur hn.disk hs hnone hw
  refine ⟨hdisk, fun p' hp' => ?_, fun e s hlookup => ?_⟩
  · cases hp'
    rw [← hnext] at hinit hknown
    exact ⟨hcur', hinit, fun hl => absurd hl hsome, hs', hknown⟩
  rcases writeValidatorSet_ok hw with ⟨last, hl, hle, -, rfl⟩ | ⟨hlast, -, rfl⟩
  · have hskip : p.configFile.lastValSet.any (vset.epoch ≤ ·.epoch) = true := by simp [hl, hle]
    simp only [hskip, if_true]
    exact hn.last e s hlookup
  · have hskip : p.configFile.lastValSet.any (vset.epoch ≤ ·.epoch) = false := by
      cases hl : p.configFile.lastValSet with
      | none => rfl
      | some last =>
        have := hlast last hl
        simp only [Option.any_some, decide_eq_false_iff_not]
        omega
    simp only [hskip, Bool.false_eq_true, if_false]
    rcases of_merged_get hlookup with ⟨rfl, rfl⟩ | ⟨hne, hold⟩
    · simp
    · rw [List.find?_cons_of_neg (by simpa using Ne.symm hne)]
      exact hn.last e s hold

theorem stop_ok (hn : n.Ok) (hp : p.Ok n.disk) (m : ValidatorsEpochMapping) :
    (n.stop { p with valEpochMap := m }).Ok := by
  refine ⟨hn.disk, ?_, hn.last⟩
  intro p' hp'
  cases hp'
  refine { current := hp.current, init := hp.init, started := hp.started, stored := hp.stored, known := ?_ }
  intro hstopped
  cases hstopped

theorem initWrite_ok (hn : n.Ok) (hp : p.Ok n.disk) : (n.initWrite p).Ok := by
  unfold initWrite
  cases hinit : p.init with
  | nil => exact hn
  | cons vset init =>
    have hrange := hp.init
    rw [hinit, List.map_cons, List.length_cons, List.range'_succ] at hrange
    obtain ⟨hnext, hrest⟩ := List.cons.inj hrange
    have hnone : p.configFile.lastValSet = none → vset.epoch = p.configFile.floor := by
      intro hl
      rw [hnext, next, hl]
    dsimp only
    cases hw : n.persist { p with init := init } vset with
    | error gap =>
      refine ⟨hn.disk, ?_, hn.last⟩
      intro p' hp'
      cases hp'
    | ok n' =>
      have hmax : max p.configFile.next (vset.epoch + 1) = p.configFile.next + 1 := by omega
      refine persist_ok (p := { p with init := init }) hn hp.current hp.stored hnone ?_ ?_ hw <;> rw [hmax]
      · exact hrest
      · intro hstopped e he
        have := hp.known hstopped e he
        rw [hinit, List.length_cons] at this
        dsimp only
        omega

theorem updateValidators_ok (hn : n.Ok) (hp : p.Ok n.disk) (hinit : p.init = []) : (n.updateValidators p vset).Ok := by
  have hsome : p.configFile.lastValSet ≠ none := fun hl => hp.started hl hinit
  unfold updateValidators
  cases hm : p.valEpochMap.insertSet vset.epoch vset.validators with
  | error e => exact stop_ok hn hp p.valEpochMap
  | ok m =>
    dsimp only
    cases hw : n.persist { p with valEpochMap := m } vset with
    | error gap => exact stop_ok hn hp m
    | ok n' =>
      refine persist_ok (p := { p with valEpochMap := m }) hn hp.current hp.stored (absurd · hsome) ?_ ?_ hw
      · simp [hinit]
      · intro hstopped e he
        dsimp only
        rcases ValidatorsEpochMapping.of_insertSet hm he with heq | hold
        · omega
        · have := hp.known hstopped e hold
          rw [hinit] at this ⊢
          simp only [List.length_nil] at this ⊢
          omega

theorem scheduleEpochStart_ok (hn : n.Ok) (hp : p.Ok n.disk) (blockNum blockRound : Nat) :
    (n.scheduleEpochStart p blockNum blockRound).Ok := by
  unfold scheduleEpochStart
  cases p.epochManager.scheduleEpochStart blockNum blockRound with
  | error e => exact stop_ok hn hp p.valEpochMap
  | ok em =>
    refine ⟨hn.disk, ?_, hn.last⟩
    intro p' hp'
    cases hp'
    exact { hp with }

theorem getLockedEpoch_some {epoch : Nat} {le : LockedEpoch} (h : p.getLockedEpoch epoch = some le) :
    le.epoch = epoch ∧ (p.valEpochMap.get epoch).isSome := by
  unfold Process.getLockedEpoch at h
  by_cases hnone : (p.valEpochMap.get epoch).isNone
  · rw [if_pos hnone] at h
    cases h
  · rw [if_neg hnone] at h
    obtain ⟨round, -, rfl⟩ := Option.map_eq_some_iff.mp h
    exact ⟨rfl, by simpa [Option.isSome_iff_ne_none] using hnone⟩

variable {cp : Checkpoint} {locked : List ValidatorSetDataWithEpoch} {hc : RoundCertificate} {d : Disk}
  {root : RootInfo}

theorem checkpoint_spec (h : p.checkpoint root hc = .ok cp) :
    (cp.validatorSets.map (·.epoch) = [root.epoch] ∨ cp.validatorSets.map (·.epoch) = [root.epoch, root.epoch + 1]) ∧
      ∀ le ∈ cp.validatorSets, root.epoch ≤ le.epoch ∧ (p.valEpochMap.get le.epoch).isSome := by
  unfold Process.checkpoint at h
  split at h
  · cases h
  rename_i base hbase
  cases h
  obtain ⟨hb, hbv⟩ := getLockedEpoch_some hbase
  cases hsucc : p.getLockedEpoch (root.epoch + 1) with
  | none =>
    refine ⟨.inl (by simp [hb]), ?_⟩
    intro le hle
    obtain rfl : le = base := by simpa using hle
    exact ⟨hb.ge, hb ▸ hbv⟩
  | some succ =>
    obtain ⟨hs, hsv⟩ := getLockedEpoch_some hsucc
    refine ⟨.inr (by simp [hb, hs]), ?_⟩
    intro le hle
    have hcases : le = base ∨ le = succ := by simpa using hle
    rcases hcases with rfl | rfl
    · exact ⟨hb.ge, hb ▸ hbv⟩
    · exact ⟨by omega, hs ▸ hsv⟩

theorem checkpoint_ok (hn : n.Ok) (hp : p.Ok n.disk) (hinit : p.init = []) (hrun : p.stopped = false)
    (hfloor : p.configFile.floor ≤ root.epoch) : (n.checkpoint p root hc).Ok := by
  obtain ⟨last, hlast⟩ : ∃ last, p.configFile.lastValSet = some last := by
    rw [← Option.isSome_iff_exists, Option.isSome_iff_ne_none]
    exact fun hl => hp.started hl hinit
  unfold checkpoint
  cases hcp : p.checkpoint root hc with
  | error e => exact stop_ok hn hp p.valEpochMap
  | ok cp =>
    obtain ⟨hnamed, hsets⟩ := checkpoint_spec hcp
    have hconsec : cp.Consecutive := ⟨root.epoch, hnamed⟩
    have hfloor' : floor { p.configFile with checkpoint := some cp } = root.epoch :=
      floor_eq rfl hnamed
    have hnext : p.configFile.next = last.epoch + 1 := by simp [next, hlast]
    refine ⟨⟨?_, ?_⟩, ?_, hn.last⟩
    · -- the sets it names are not above the last one written
      intro cp' hcp' le hle
      obtain rfl : cp = cp' := Option.some.inj hcp'
      obtain ⟨hge, hset⟩ := hsets le hle
      have hlt := hp.known hrun le.epoch hset
      rw [hinit, hnext, List.length_nil] at hlt
      exact hp.stored last hlast le.epoch (by omega) (by omega)
    · intro cp' hcp'
      obtain rfl : cp = cp' := Option.some.inj hcp'
      exact hconsec
    · intro p' hp'
      cases hp'
      refine { current := rfl, init := ?_, started := hp.started, stored := ?_, known := ?_ }
      · simp [hinit]
      · intro last' hlast' e he hle
        rw [show floor _ = root.epoch from hfloor'] at he
        exact hp.stored last' hlast' e (by omega) hle
      · intro hstopped e he
        have hlt := hp.known hstopped e he
        rw [hnext] at hlt
        show e < next { p.configFile with checkpoint := some cp } + p.init.length
        have hnext' : next { p.configFile with checkpoint := some cp } = last.epoch + 1 := by
          simp [next, hlast]
        omega

theorem boot_known {config : NodeConfig} (h : Process.boot config d cp locked = .ok p)
    (he : (p.valEpochMap.get e).isSome) : e ∈ locked.map (·.epoch) := by
  obtain ⟨m, hm, h⟩ := bind_eq_ok.mp h
  cases h
  have hinv : ∀ e, (m.get e).isSome → e ∈ locked.map (·.epoch) := by
    refine foldlM_invariant (I := fun m : ValidatorsEpochMapping =>
      ∀ e, (m.get e).isSome → e ∈ locked.map (·.epoch)) ?_ hm ?_
    · intro s hs m m' hstep hm e he
      rcases ValidatorsEpochMapping.of_insertSet hstep he with rfl | hold
      · exact List.mem_map_of_mem hs
      · exact hm e hold
    · intro e he
      cases he
  exact hinv e he

theorem boot_ok {config : NodeConfig} (h : Process.boot config d cp locked = .ok p) (hne : locked ≠ [])
    (hlocked : locked.map (·.epoch) = List.range' (loadPersisted d).floor locked.length) : p.Ok d := by
  have hknown := fun e (he : (p.valEpochMap.get e).isSome) => boot_known h he
  obtain ⟨m, -, h⟩ := bind_eq_ok.mp h
  cases h
  refine { current := rfl, init := hlocked, started := fun _ => hne, stored := ?_, known := ?_ }
  · intro last hlast
    cases hlast
  · intro _ e he
    have hmem := hknown e he
    rw [hlocked, List.mem_range'_1] at hmem
    exact hmem.2

theorem locked_epochs {les : List LockedEpoch} (h : List.Forall₂ (fun le s => d.lookup le.epoch = some s) les locked) :
    locked.map (·.epoch) = les.map (·.epoch) := by
  induction h with
  | nil => rfl
  | cons hs _ ih => rw [List.map_cons, List.map_cons, lookup_epoch hs, ih]

theorem restart_ok (hn : n.Ok) (config : NodeConfig) : ∃ n', n.restart config = .ok n' ∧ n'.Ok := by
  obtain ⟨r, hr⟩ := loadPersistedState_of_covered hn.disk.covered
  unfold restart
  rw [hr, ok_bind]
  refine ⟨_, rfl, hn.disk, ?_, hn.last⟩
  intro p hp
  replace hp := toOption_eq_some.mp hp
  cases r with
  | none =>
    -- no forkpoint yet: the genesis set
    have hf : n.disk.forkpoint = none := by
      unfold loadPersistedState at hr
      cases hf : n.disk.forkpoint with
      | none => rfl
      | some cp =>
        rw [hf] at hr
        obtain ⟨locked, -, h⟩ := bind_eq_ok.mp hr
        cases h
    refine boot_ok hp (List.cons_ne_nil _ _) ?_
    simp [floor, minLocked, loadPersisted, hf]
  | some loaded =>
    obtain ⟨cp, locked⟩ := loaded
    obtain ⟨hf, hall⟩ := loadPersistedState_some hr
    have hepochs := locked_epochs hall
    have hlen : locked.length = cp.validatorSets.length := hall.length_eq.symm
    have hnamed := floor_of_consecutive (c := .loadPersisted n.disk) hf (hn.disk.consecutive cp hf)
    rcases hnamed with hb | hb
    · have hone : locked.length = 1 := by simpa [hlen] using congrArg List.length hb
      refine boot_ok hp (List.ne_nil_of_length_pos (hone ▸ Nat.one_pos)) ?_
      rw [hepochs, hb, hone]
      rfl
    · have htwo : locked.length = 2 := by simpa [hlen] using congrArg List.length hb
      refine boot_ok hp (List.ne_nil_of_length_pos (htwo ▸ Nat.two_pos)) ?_
      rw [hepochs, hb, htwo]
      rfl

/-! ## Runs -/

/-- A checkpoint is not taken by a node that is stopping, and does not step back behind the
checkpoint before. -/
def Keeps (n : Node) : Action → Prop
  | .checkpoint root _ => ∀ p, n.process = some p → p.stopped = false ∧ p.configFile.floor ≤ root.epoch
  | _ => True

theorem apply_ok (hn : n.Ok) : ∃ n', n.apply a = .ok n' := by
  unfold apply
  cases a with
  | restart config =>
    obtain ⟨n', h, -⟩ := restart_ok hn config
    exact ⟨n', h⟩
  | initWrite => cases n.process <;> exact ⟨_, rfl⟩
  | updateValidators vset => cases n.process <;> exact ⟨_, rfl⟩
  | scheduleEpochStart blockNum blockRound => cases n.process <;> exact ⟨_, rfl⟩
  | checkpoint root hc => cases n.process <;> exact ⟨_, rfl⟩

theorem apply_inv (hn : n.Ok) (hk : n.Keeps a) (h : n.apply a = .ok n') : n'.Ok := by
  unfold apply at h
  split at h
  · rename_i _ _ config
    obtain ⟨n₁, h₁, hok⟩ := restart_ok hn config
    obtain rfl : n₁ = n' := Except.ok.inj (h₁.symm.trans h)
    exact hok
  · cases h
    exact hn
  · rename_i p hp
    cases h
    exact initWrite_ok hn (hn.process p hp)
  · rename_i blockNum blockRound p hp
    cases h
    exact scheduleEpochStart_ok hn (hn.process p hp) blockNum blockRound
  · rename_i vset p hp
    cases h
    by_cases hinit : p.init = []
    · rw [if_pos hinit]
      exact updateValidators_ok hn (hn.process p hp) hinit
    · rw [if_neg hinit]
      exact hn
  · rename_i root hc p hp
    cases h
    by_cases hinit : p.init = []
    · rw [if_pos hinit]
      obtain ⟨hrun, hfloor⟩ := hk p hp
      exact checkpoint_ok hn (hn.process p hp) hinit hrun hfloor
    · rw [if_neg hinit]
      exact hn

theorem fresh_ok : fresh.Ok := by
  refine ⟨⟨?_, ?_⟩, ?_, ?_⟩
  · intro cp hcp
    cases hcp
  · intro cp hcp
    cases hcp
  · intro p hp
    cases hp
  · intro e s hs
    cases hs

/-- From an empty directory, whatever starts, crashes and events follow: a run in which no
checkpoint steps back or is taken by a stopping node gets through every start. At each point of it
the forkpoint and the sets it names can be loaded, and the set stored for an epoch is the last
that was written for it. -/
theorem forkpoint_loads (actions : List Action) (h : Kept apply Keeps fresh actions) :
    ∀ done, done <+: actions → ∃ n, runAll apply fresh done = .ok n ∧
      (∃ r, loadPersistedState n.disk = .ok r) ∧ n.disk.Covered ∧
      ∀ epoch s, n.disk.lookup epoch = some s → n.written.find? (·.epoch = epoch) = some s := by
  intro done hdone
  obtain ⟨n, hrun, hn⟩ := h.runs (I := Node.Ok) apply_ok apply_inv fresh_ok done hdone
  exact ⟨n, hrun, loadPersistedState_of_covered hn.disk.covered, hn.disk.covered, hn.last⟩

/-! ## Runs of one node -/

section Runs

open Scenario

def config : NodeConfig := ⟨10, 2, validators⟩

def rootOf (epoch : Nat) : RootInfo := { genesisRoot with epoch := epoch }

/-- The first start, with the genesis set, and the set and the start of epoch 2. -/
def twoEpochs : List Action :=
  [.restart config, .initWrite, .updateValidators ⟨2, validators⟩, .scheduleEpochStart 9 9]

/-- A checkpoint in epoch 2, a crash and a second start. -/
def restarted : List Action :=
  twoEpochs ++ [.checkpoint (rootOf 2) (.qc GenesisQC), .restart config]

theorem forkpoint_loads_restarted : ∃ n, runAll apply fresh restarted = .ok n ∧ n.disk.Covered := by
  have hkept : Kept apply Keeps fresh restarted := by
    intro n₁ h₁
    obtain rfl := Except.ok.inj h₁
    refine ⟨trivial, fun n₂ h₂ => ?_⟩
    obtain rfl := Except.ok.inj h₂
    refine ⟨trivial, fun n₃ h₃ => ?_⟩
    obtain rfl := Except.ok.inj h₃
    refine ⟨trivial, fun n₄ h₄ => ?_⟩
    obtain rfl := Except.ok.inj h₄
    refine ⟨trivial, fun n₅ h₅ => ⟨?_, fun _ _ => ⟨trivial, trivial⟩⟩⟩
    intro p hp
    cases hp
    exact ⟨rfl, by decide⟩
  obtain ⟨n, hrun, -, hcovered, -⟩ := forkpoint_loads restarted hkept restarted (List.prefix_refl _)
  exact ⟨n, hrun, hcovered⟩

/-- After a checkpoint in epoch 2 the set of epoch 3 is written, which drops the set of epoch 1,
and the next checkpoint is taken at a root in epoch 1. -/
def stepsBack : List Action :=
  twoEpochs ++ [.checkpoint (rootOf 2) (.qc GenesisQC), .updateValidators ⟨3, validators⟩,
    .checkpoint (rootOf 1) (.qc GenesisQC)]

theorem forkpoint_steps_back : ∃ n, runAll apply fresh stepsBack = .ok n ∧ loadPersistedState n.disk = .error ⟨1⟩ :=
  ⟨_, rfl, by decide +kernel⟩

/-- The set of epoch 4 is refused, because that of epoch 3 was not written, but it is in the map.
The node that stops then takes a checkpoint at a root in epoch 4. -/
def stopping : List Action :=
  twoEpochs ++ [.scheduleEpochStart 19 19, .scheduleEpochStart 29 29, .updateValidators ⟨4, validators⟩,
    .checkpoint (rootOf 4) (.qc GenesisQC)]

theorem forkpoint_while_stopping : ∃ n, runAll apply fresh stopping = .ok n ∧
    (n.process.map (·.stopped)) = some true ∧ loadPersistedState n.disk = .error ⟨4⟩ :=
  ⟨_, rfl, by decide +kernel, by decide +kernel⟩

end Runs

end Node

end MonadBft
