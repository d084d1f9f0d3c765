import OlaOs.Sequencer.HistoricalReads

/-! The cache of storage values (`state/src/postgres.rs`). The task that updates it reads from the
database before it locks the cache, so that the sequencer and the requests of the API may take steps
in between. -/
namespace OlaOs

/-- `ValuesCacheInner` -/
structure ValuesCache where
  validFor : ℕ
  values : KeyedMap H256 H256

namespace ValuesCache

def maxMiniblocksLag : ℕ := 5

/-- What `update` has found out when it takes the lock: the modified keys, unless the cache lags too
far behind to ask for them. -/
structure Plan where
  fromMiniblock : ℕ
  toMiniblock : ℕ
  modifiedKeys : Option (List H256)

/-- `update` up to the lock. The numbers are `u32`. -/
def plan (t : StorageTables) (fromMiniblock toMiniblock : ℕ) : Except String Plan :=
  if toMiniblock < fromMiniblock then .error "attempt to subtract with overflow"
  else if toMiniblock - fromMiniblock > maxMiniblocksLag then
    .ok ⟨fromMiniblock, toMiniblock, none⟩
  else .ok ⟨fromMiniblock, toMiniblock,
    some (t.modifiedKeysInMiniblocks (fromMiniblock + 1) toMiniblock)⟩

/-- `update` from the lock on. -/
def finish (cache : ValuesCache) (plan : Plan) : Except String ValuesCache :=
  if cache.validFor ≠ plan.fromMiniblock then .error "assertion `left == right` failed"
  else match plan.modifiedKeys with
    | none => .ok ⟨plan.toMiniblock, ∅⟩
    | some modifiedKeys =>
      .ok ⟨plan.toMiniblock, modifiedKeys.foldl (fun values key => values.erase key) cache.values⟩

end ValuesCache

/-- The chain, the cache and its task. `scheduled` records the miniblocks that requests asked the
cache to move to. -/
structure CacheSystem where
  chain : ChainState
  cache : ValuesCache
  channel : List ℕ
  currentMiniblock : ℕ
  updating : Option ValuesCache.Plan
  scheduled : List ℕ

namespace CacheSystem

/-- The task starts with an empty channel. The cache has no entries then; any that are right would
do. -/
structure Start (hash : List UInt8 → H256) (s : CacheSystem) : Prop where
  chain : ChainState.Reachable hash s.chain
  validFor : s.cache.validFor = 0
  values : ∀ hashedKey value, s.cache.values.lookup hashedKey = some value →
    (s.chain.io.storage.historicalValue hashedKey 0).getD .zero = value
  channel : s.channel = []
  currentMiniblock : s.currentMiniblock = s.cache.validFor
  updating : s.updating = none
  scheduled : s.scheduled = []

/-- The steps of the system. A request schedules the miniblock that was the sealed one when it
looked; `seen` is what it saw of the cache, before it sends. The cache may drop entries at any
time. -/
inductive Step (hash : List UInt8 → H256) : CacheSystem → CacheSystem → Prop where
  | chain {s : CacheSystem} {chain : ChainState} : ChainState.Step hash s.chain chain →
      Step hash s { s with chain := chain }
  | schedule {s : CacheSystem} (toMiniblock seen : ℕ) :
      toMiniblock ≤ s.chain.io.storage.getSealedMiniblockNumber → seen ≤ s.cache.validFor →
      Step hash s { s with
        channel := if seen < toMiniblock then s.channel ++ [toMiniblock] else s.channel
        scheduled := s.scheduled ++ [toMiniblock] }
  | evict {s : CacheSystem} (values : KeyedMap H256 H256) :
      (∀ hashedKey value, values.lookup hashedKey = some value →
        s.cache.values.lookup hashedKey = some value) →
      Step hash s { s with cache := { s.cache with values := values } }
  | skip {s : CacheSystem} {toMiniblock : ℕ} {channel : List ℕ} : s.updating = none →
      s.channel = toMiniblock :: channel → toMiniblock ≤ s.currentMiniblock →
      Step hash s { s with channel := channel }
  | receive {s : CacheSystem} {toMiniblock : ℕ} {channel : List ℕ} {plan : ValuesCache.Plan} :
      s.updating = none → s.channel = toMiniblock :: channel →
      ¬ toMiniblock ≤ s.currentMiniblock →
      ValuesCache.plan s.chain.io.storage s.currentMiniblock toMiniblock = .ok plan →
      Step hash s { s with channel := channel, updating := some plan }
  | finish {s : CacheSystem} {plan : ValuesCache.Plan} {cache : ValuesCache} :
      s.updating = some plan → s.cache.finish plan = .ok cache →
      Step hash s { s with
        cache := cache
        currentMiniblock := plan.toMiniblock
        updating := none }

inductive Reachable (hash : List UInt8 → H256) : CacheSystem → Prop where
  | start {s : CacheSystem} : Start hash s → Reachable hash s
  | step {s s' : CacheSystem} : Reachable hash s → Step hash s s' → Reachable hash s'

/-- A plan that can be carried out whenever the task gets the lock. -/
structure PlanInv (s : CacheSystem) (plan : ValuesCache.Plan) : Prop where
  from_eq : plan.fromMiniblock = s.currentMiniblock
  from_le : plan.fromMiniblock ≤ plan.toMiniblock
  to_le : plan.toMiniblock ≤ s.chain.io.storage.getSealedMiniblockNumber
  unmodified : ∀ keys, plan.modifiedKeys = some keys → ∀ hashedKey, hashedKey ∉ keys →
    s.chain.io.storage.historicalValue hashedKey plan.toMiniblock =
      s.chain.io.storage.historicalValue hashedKey plan.fromMiniblock

structure Inv (hash : List UInt8 → H256) (s : CacheSystem) : Prop where
  chain : ChainState.Reachable hash s.chain
  validFor : s.cache.validFor = s.currentMiniblock
  validFor_le : s.cache.validFor ≤ s.chain.io.storage.getSealedMiniblockNumber
  values : ∀ hashedKey value, s.cache.values.lookup hashedKey = some value →
    (s.chain.io.storage.historicalValue hashedKey s.cache.validFor).getD .zero = value
  channel_le : ∀ n ∈ s.channel, n ≤ s.chain.io.storage.getSealedMiniblockNumber
  updating : ∀ plan, s.updating = some plan → PlanInv s plan
  scheduled : ∀ n ∈ s.scheduled, n ≤ s.cache.validFor ∨ n ∈ s.channel ∨
    ∃ plan, s.updating = some plan ∧ n ≤ plan.toMiniblock

variable {hash : List UInt8 → H256} {s s' : CacheSystem}

theorem Start.inv (h : Start hash s) : Inv hash s := by
  refine ⟨h.chain, h.currentMiniblock.symm, ?_, ?_, ?_, ?_, ?_⟩
  · rw [h.validFor]
    exact Nat.zero_le _
  · rw [h.validFor]
    exact h.values
  · simp [h.channel]
  · simp [h.updating]
  · simp [h.scheduled]

/-- The values as of a sealed miniblock stay when the chain moves on. -/
theorem Inv.chainStep (h : Inv hash s) {chain : ChainState}
    (hstep : ChainState.Step hash s.chain chain) : Inv hash { s with chain := chain } := by
  have hsteps := Relation.ReflTransGen.single hstep
  have hle := (h.chain.rows hsteps).1
  have hfixed (hashedKey : H256) {n : ℕ}
      (hn : n ≤ s.chain.io.storage.getSealedMiniblockNumber) :
      chain.io.storage.historicalValue hashedKey n =
        s.chain.io.storage.historicalValue hashedKey n :=
    h.chain.historicalValue_fixed hsteps hashedKey hn
  refine ⟨h.chain.step hstep, h.validFor, h.validFor_le.trans hle, ?_,
    fun n hn => (h.channel_le n hn).trans hle, fun plan hplan => ?_, h.scheduled⟩
  · intro hashedKey value hvalue
    change (chain.io.storage.historicalValue hashedKey s.cache.validFor).getD .zero = value
    rw [hfixed hashedKey h.validFor_le]
    exact h.values hashedKey value hvalue
  · have hinv := h.updating plan hplan
    refine ⟨hinv.from_eq, hinv.from_le, hinv.to_le.trans hle, fun keys hkeys hashedKey hnot => ?_⟩
    change chain.io.storage.historicalValue hashedKey plan.toMiniblock =
      chain.io.storage.historicalValue hashedKey plan.fromMiniblock
    rw [hfixed hashedKey hinv.to_le, hfixed hashedKey (hinv.from_le.trans hinv.to_le)]
    exact hinv.unmodified keys hkeys hashedKey hnot

/-- A plan is made: the keys that are not modified have the same value as of both miniblocks. -/
theorem planInv_of_plan (hchain : ChainState.Reachable hash s.chain) {toMiniblock : ℕ}
    {plan : ValuesCache.Plan} (hto : toMiniblock ≤ s.chain.io.storage.getSealedMiniblockNumber)
    (hplan : ValuesCache.plan s.chain.io.storage s.currentMiniblock toMiniblock = .ok plan) :
    PlanInv s plan ∧ plan.toMiniblock = toMiniblock := by
  unfold ValuesCache.plan at hplan
  split_ifs at hplan with hlt hlag
  · cases hplan
    exact ⟨⟨rfl, not_lt.mp hlt, hto, nofun⟩, rfl⟩
  · cases hplan
    refine ⟨⟨rfl, not_lt.mp hlt, hto, fun keys hkeys hashedKey hnot => ?_⟩, rfl⟩
    cases hkeys
    exact ChainState.historicalValue_unmodified hchain (not_lt.mp hlt) hnot

/-- What is left of the values after the removal of some keys. -/
theorem lookup_foldl_erase (values : KeyedMap H256 H256) (keys : List H256) {hashedKey : H256}
    {value : H256} (h : (keys.foldl (fun values key => values.erase key) values).lookup hashedKey =
      some value) : hashedKey ∉ keys ∧ values.lookup hashedKey = some value := by
  induction keys generalizing values with
  | nil => exact ⟨List.not_mem_nil, h⟩
  | cons key keys ih =>
    obtain ⟨hnot, hlookup⟩ := ih _ h
    rw [KeyedMap.lookup_erase_eq] at hlookup
    split_ifs at hlookup with hne
    exact ⟨by simp [hne, hnot], hlookup⟩

/-- The update is carried out: the values that stay are right for the new miniblock. -/
theorem Inv.values_finish (h : Inv hash s) {plan : ValuesCache.Plan} {cache : ValuesCache}
    (hplan : PlanInv s plan) (hfinish : s.cache.finish plan = .ok cache) :
    cache.validFor = plan.toMiniblock ∧ ∀ hashedKey value,
      cache.values.lookup hashedKey = some value →
        (s.chain.io.storage.historicalValue hashedKey cache.validFor).getD .zero = value := by
  unfold ValuesCache.finish at hfinish
  split_ifs at hfinish with hfrom
  cases hkeys : plan.modifiedKeys with
  | none =>
    rw [hkeys] at hfinish
    cases hfinish
    exact ⟨rfl, nofun⟩
  | some keys =>
    rw [hkeys] at hfinish
    cases hfinish
    refine ⟨rfl, fun hashedKey value hvalue => ?_⟩
    obtain ⟨hnot, hlookup⟩ := lookup_foldl_erase _ _ hvalue
    rw [hplan.unmodified keys hkeys hashedKey hnot, hplan.from_eq, ← h.validFor]
    exact h.values hashedKey value hlookup

theorem Inv.step (h : Inv hash s) (hstep : Step hash s s') : Inv hash s' := by
  cases hstep with
  | chain hchain => exact h.chainStep hchain
  | schedule toMiniblock seen hto hseen =>
    refine ⟨h.chain, h.validFor, h.validFor_le, h.values, ?_, ?_, ?_⟩
    · intro n hn
      dsimp only at hn
      split_ifs at hn
      · rcases List.mem_append.mp hn with hn | hn
        · exact h.channel_le n hn
        · rw [List.mem_singleton.mp hn]
          exact hto
      · exact h.channel_le n hn
    · intro plan hplan
      exact { h.updating plan hplan with }
    · intro n hn
      dsimp only
      rcases List.mem_append.mp hn with hn | hn
      · rcases h.scheduled n hn with hle | hmem | hplan
        · exact .inl hle
        · refine .inr (.inl ?_)
          split_ifs
          · exact List.mem_append_left _ hmem
          · exact hmem
        · exact .inr (.inr hplan)
      · rw [List.mem_singleton.mp hn]
        split_ifs with hlt
        · exact .inr (.inl (by simp))
        · exact .inl (by omega)
  | evict values hvalues =>
    refine ⟨h.chain, h.validFor, h.validFor_le, ?_, h.channel_le, ?_, h.scheduled⟩
    · intro hashedKey value hvalue
      exact h.values hashedKey value (hvalues hashedKey value hvalue)
    · intro plan hplan
      exact { h.updating plan hplan with }
  | @skip toMiniblock channel hidle hchannel hle =>
    refine ⟨h.chain, h.validFor, h.validFor_le, h.values, ?_, ?_, ?_⟩
    · intro n hn
      exact h.channel_le n (hchannel ▸ List.mem_cons_of_mem _ hn)
    · intro plan hplan
      exact { h.updating plan hplan with }
    · intro n hn
      rcases h.scheduled n hn with hdone | hmem | hplan
      · exact .inl hdone
      · rcases List.mem_cons.mp (hchannel ▸ hmem) with rfl | hmem
        · exact .inl (h.validFor.symm ▸ hle)
        · exact .inr (.inl hmem)
      · exact .inr (.inr hplan)
  | @receive toMiniblock channel plan hidle hchannel hgt hplan =>
    have hto := h.channel_le toMiniblock (hchannel ▸ List.mem_cons_self)
    obtain ⟨hinv, hplanTo⟩ := planInv_of_plan h.chain hto hplan
    refine ⟨h.chain, h.validFor, h.validFor_le, h.values, ?_, ?_, ?_⟩
    · intro n hn
      exact h.channel_le n (hchannel ▸ List.mem_cons_of_mem _ hn)
    · intro plan' hplan'
      cases hplan'
      exact { hinv with }
    · intro n hn
      rcases h.scheduled n hn with hdone | hmem | ⟨plan', hplan', -⟩
      · exact .inl hdone
      · rcases List.mem_cons.mp (hchannel ▸ hmem) with rfl | hmem
        · exact .inr (.inr ⟨plan, rfl, hplanTo.ge⟩)
        · exact .inr (.inl hmem)
      · rw [hidle] at hplan'
        cases hplan'
  | @finish plan cache hupdating hfinish =>
    have hplan := h.updating plan hupdating
    obtain ⟨hvalid, hvalues⟩ := h.values_finish hplan hfinish
    refine ⟨h.chain, hvalid, ?_, hvalues, h.channel_le, nofun, ?_⟩
    · rw [hvalid]
      exact hplan.to_le
    · intro n hn
      rcases h.scheduled n hn with hdone | hmem | ⟨plan', hplan', hle⟩
      · have hle := hplan.from_le
        rw [hplan.from_eq, ← h.validFor] at hle
        exact .inl ((hdone.trans hle).trans hvalid.ge)
      · exact .inr (.inl hmem)
      · rw [hupdating] at hplan'
        cases hplan'
        exact .inl (hle.trans hvalid.ge)

theorem Reachable.inv (h : Reachable hash s) : Inv hash s := by
  induction h with
  | start h => exact h.inv
  | step _ hstep ih => exact ih.step hstep

/-- What the requests may rely on: the cache is at a sealed miniblock, what it holds is what the
database says as of this miniblock, its task cannot panic, and once the task is idle the cache has
reached every miniblock it was asked to move to. -/
structure Coherent (s : CacheSystem) : Prop where
  validFor_le : s.cache.validFor ≤ s.chain.io.storage.getSealedMiniblockNumber
  values : ∀ hashedKey value, s.cache.values.lookup hashedKey = some value →
    (s.chain.io.storage.historicalValue hashedKey s.cache.validFor).getD .zero = value
  plan_ok : ∀ toMiniblock, ¬ toMiniblock ≤ s.currentMiniblock →
    ∃ plan, ValuesCache.plan s.chain.io.storage s.currentMiniblock toMiniblock = .ok plan
  finish_ok : ∀ plan, s.updating = some plan → ∃ cache, s.cache.finish plan = .ok cache
  caught_up : s.channel = [] → s.updating = none → ∀ n ∈ s.scheduled, n ≤ s.cache.validFor

/-- In every interleaving of the sequencer, the requests and the task of the cache. -/
theorem Reachable.coherent (hash : List UInt8 → H256) (s : CacheSystem) (h : Reachable hash s) :
    Coherent s := by
  have hinv := h.inv
  refine ⟨hinv.validFor_le, hinv.values, fun toMiniblock hgt => ?_, fun plan hplan => ?_,
    fun hchannel hidle n hn => ?_⟩
  · unfold ValuesCache.plan
    rw [if_neg (by omega)]
    split_ifs
    · exact ⟨_, rfl⟩
    · exact ⟨_, rfl⟩
  · have hfrom := (hinv.updating plan hplan).from_eq
    unfold ValuesCache.finish
    rw [if_neg (by simp [hinv.validFor, hfrom])]
    cases plan.modifiedKeys with
    | none => exact ⟨_, rfl⟩
    | some keys => exact ⟨_, rfl⟩
  · rcases hinv.scheduled n hn with hdone | hmem | ⟨plan, hplan, -⟩
    · exact hdone
    · rw [hchannel] at hmem
      cases hmem
    · rw [hidle] at hplan
      cases hplan

theorem Reachable.chainSteps (h : Reachable hash s) {chain : ChainState}
    (hsteps : Relation.ReflTransGen (ChainState.Step hash) s.chain chain) :
    Reachable hash { s with chain := chain } := by
  induction hsteps with
  | refl => exact h
  | tail _ hstep ih => exact ih.step (.chain hstep)

/-- A key that the sample writes, and one that it does not use. -/
def sampleModified : H256 := StorageKey.hashedKey sampleHash ⟨.zero, u256ToH256 1⟩
def sampleUnused : H256 := StorageKey.hashedKey sampleHash ⟨.zero, u256ToH256 4⟩

theorem sampleChainRun_values : (sampleChainRun.toOption.map fun run =>
    (run.2.2.1.storage.historicalValue sampleModified 0,
      run.2.2.1.storage.historicalValue sampleUnused 0,
      decide (sampleModified ∈ run.2.2.1.storage.modifiedKeysInMiniblocks 1 2),
      decide (sampleUnused ∈ run.2.2.1.storage.modifiedKeysInMiniblocks 1 2))) =
        some (some (u256ToH256 5), none, true, false) := by
  simp only [sampleChainRun, SequencerIo.sealL1Batch, UpdatesManager.sealL1Batch, sort_sampleBatch]
  decide +kernel

/-- What stays of the values when the keys that are removed do not have the key. -/
theorem lookup_foldl_erase_of_not_mem (values : KeyedMap H256 H256) {keys : List H256}
    {hashedKey : H256} (h : hashedKey ∉ keys) :
    (keys.foldl (fun values key => values.erase key) values).lookup hashedKey =
      values.lookup hashedKey := by
  induction keys generalizing values with
  | nil => rfl
  | cons key keys ih =>
    rw [List.mem_cons, not_or] at h
    rw [List.foldl_cons, ih _ h.2, KeyedMap.lookup_erase_eq, if_neg h.1]

/-- A cache with two entries follows the chain of the sample to miniblock 2: one key is modified on
the way, and the other entry stays. -/
theorem Reachable.coherent_sample : ∃ s : CacheSystem, Reachable sampleHash s ∧
    s.cache.validFor = 2 ∧ s.scheduled = [2] ∧ s.cache.values.lookup sampleModified = none ∧
    s.cache.values.lookup sampleUnused = some .zero ∧ Coherent s := by
  obtain ⟨chain, chain', hchain, hsteps, -, -, io, tables, hrun⟩ := ChainState.reachable_sample
  have htwo := ChainState.sampleChainRun_miniblocks
  have hvalues := sampleChainRun_values
  rw [hrun] at htwo hvalues
  have hsealed : chain'.io.storage.getSealedMiniblockNumber = 2 := Option.some.inj htwo
  obtain ⟨hmodified, hunused, hmem, hnot⟩ :
      chain'.io.storage.historicalValue sampleModified 0 = some (u256ToH256 5) ∧
      chain'.io.storage.historicalValue sampleUnused 0 = none ∧
      sampleModified ∈ chain'.io.storage.modifiedKeysInMiniblocks 1 2 ∧
      sampleUnused ∉ chain'.io.storage.modifiedKeysInMiniblocks 1 2 := by
    simpa only [Prod.mk.injEq, decide_eq_true_eq, decide_eq_false_iff_not] using
      Option.some.inj hvalues
  have hne : sampleUnused ≠ sampleModified := by decide +kernel
  let values : KeyedMap H256 H256 :=
    ((∅ : KeyedMap H256 H256).insert sampleUnused .zero).insert sampleModified (u256ToH256 5)
  have hlookup : ∀ hashedKey, values.lookup hashedKey =
      if hashedKey = sampleModified then some (u256ToH256 5)
      else if hashedKey = sampleUnused then some .zero else none := fun hashedKey => by
    rw [KeyedMap.lookup_insert_eq, KeyedMap.lookup_insert_eq]
    rfl
  have hstart : Reachable sampleHash ⟨chain, ⟨0, values⟩, [], 0, none, []⟩ := by
    refine .start ⟨hchain, rfl, fun hashedKey value hvalue => ?_, rfl, rfl, rfl, rfl⟩
    rw [hlookup] at hvalue
    change (chain.io.storage.historicalValue hashedKey 0).getD .zero = value
    rw [← hchain.historicalValue_fixed hsteps hashedKey (Nat.zero_le _)]
    split_ifs at hvalue with hkey hkey
    · cases hvalue
      rw [hkey, hmodified]
      rfl
    · cases hvalue
      rw [hkey, hunused]
      rfl
  have hscheduled := (hstart.chainSteps hsteps).step
    (.schedule 2 0 (by rw [hsealed]) (Nat.zero_le _))
  have hreceived := hscheduled.step (.receive rfl rfl (by simp) rfl)
  have hfinished := hreceived.step (.finish rfl rfl)
  refine ⟨_, hfinished, rfl, rfl, ?_, ?_, Reachable.coherent sampleHash _ hfinished⟩
  · refine Option.eq_none_iff_forall_ne_some.mpr fun value hvalue => ?_
    exact (lookup_foldl_erase _ _ hvalue).1 hmem
  · exact (lookup_foldl_erase_of_not_mem values hnot).trans
      ((hlookup _).trans (by rw [if_neg hne, if_pos rfl]))

end CacheSystem

end OlaOs
