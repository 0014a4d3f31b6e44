import LightningRecords.Proofs.Procedure.Frame
import LightningRecords.Proofs.Procedure.Tally
import LightningRecords.Proofs.Store.Weight
import Mathlib.Data.List.Perm.Basic

namespace LightningRecords

variable {answers : (q : Question) → Except String q.Answer}

open Procedure in
-- A procedure that may end well does an errand for the key under which it looks.
theorem Procedure.Observes.exists_errand {schema : Schema} {p : Procedure Outcome}
    {about : Key → Prop} {e e' : Environment} {outcome : Outcome} (hp : Observes schema p)
    (hlooks : p.run.Looks answers about) (h : execute answers p e = (.ok outcome, e')) :
    ∃ a : Errand, a.schema = schema ∧ about a.key ∧ schema.Steady a.build ∧
      ∀ e, execute answers p e = execute answers a.procedure e := by
  induction hp with
  | fail error => cases h
  | @ask entity question f _ ih =>
    simp only [execute_ask] at h ⊢
    cases hreply : answers question with
    | error message =>
      rw [hreply] at h
      cases h
    | ok answer =>
      rw [hreply] at h
      exact ih answer (hlooks.of_bind_ask hreply) h
  | @load key f hf =>
    obtain ⟨build, hsteady, hbuild⟩ := hf.exists_build answers
    refine ⟨⟨schema, key, build⟩, rfl, hlooks, hsteady, fun e => ?_⟩
    simp only [Errand.procedure, observe, execute_load, hbuild]

-- One stop of a walk.
inductive Stop where
  | channel (id : String)
  | node (publicKey : String)
  | peer (publicKey : String)
  | policy (publicKey channelId : String)

namespace Stop

def call : Stop → Call
  | .channel id => .channel id
  | .node publicKey => .node publicKey
  | .peer publicKey => .peer publicKey
  | .policy publicKey channelId => .policy publicKey channelId

def procedure : Stop → Procedure Outcome
  | .channel id => Procedure.channel id
  | .node publicKey => Procedure.node publicKey
  | .peer publicKey => Procedure.peer publicKey
  | .policy publicKey channelId => Procedure.policy publicKey channelId

def schemas : List Schema := [.channel, .node, .peer, .policy]

-- The tables that the stops of a walk are about.
def tables : List String := schemas.map (·.table)

-- What is hashed to the key of a stop's record, if its names can be part of a key.
def message? (answers : (q : Question) → Except String q.Answer) (stop : Stop) : Option Bytes :=
  (Key.compositePreimage stop.call.schema.kind
    (stop.call.identity (localKey answers))).toOption

def messages (answers : (q : Question) → Except String q.Answer) (stops : List Stop) : Set Bytes :=
  {message | ∃ stop ∈ stops, stop.message? answers = some message}

theorem observes : (stop : Stop) → Procedure.Observes stop.call.schema stop.procedure
  | .channel id => Procedure.observes_channel id
  | .node publicKey => Procedure.observes_node publicKey
  | .peer publicKey => Procedure.observes_peer publicKey
  | .policy publicKey channelId => Procedure.observes_policy publicKey channelId

theorem looks (answers : (q : Question) → Except String q.Answer) : (stop : Stop) →
    stop.procedure.run.Looks answers fun key =>
      Field.key stop.call.schema (stop.call.identity (localKey answers)) = .ok key
  | .channel id => Call.looks answers (.channel id)
  | .node publicKey => Call.looks answers (.node publicKey)
  | .peer publicKey => Call.looks answers (.peer publicKey)
  | .policy publicKey channelId => Call.looks answers (.policy publicKey channelId)

theorem eq_of_identity {a b : Stop} {localKey : String}
    (hkind : a.call.schema.kind = b.call.schema.kind)
    (hidentity : a.call.identity localKey = b.call.identity localKey) : a = b := by
  cases a <;> cases b <;> simp_all [call, Call.identity, Call.schema, Schema.channel, Schema.node,
    Schema.peer, Schema.policy]

-- An errand does what is to be done at a stop.
structure Does (answers : (q : Question) → Except String q.Answer) (stop : Stop) (a : Errand) :
    Prop where
  schema : a.schema = stop.call.schema
  key : Field.key stop.call.schema (stop.call.identity (localKey answers)) = .ok a.key
  fulfils : Procedure.Fulfils answers tables stop.procedure a

theorem schema_mem (stop : Stop) : stop.call.schema ∈ schemas := by
  cases stop <;> simp [call, Call.schema, schemas]

theorem checkTable_of_mem : ∀ schema ∈ schemas, Environment.checkTable schema.table = .ok () := by
  decide

theorem revision_not_mem_mutable :
    ∀ schema ∈ schemas, Record.revisionAttribute ∉ schema.mutable := by
  decide

theorem exists_does (answers : (q : Question) → Except String q.Answer) (stop : Stop) :
    ∃ a : Errand,
      (∃ e outcome e', Procedure.execute answers stop.procedure e = (.ok outcome, e')) →
        stop.Does answers a := by
  by_cases hworks :
      ∃ e outcome e', Procedure.execute answers stop.procedure e = (.ok outcome, e')
  · obtain ⟨_, _, _, hrun⟩ := hworks
    obtain ⟨a, hschema, hkey, hsteady, hsame⟩ :=
      stop.observes.exists_errand (stop.looks answers) hrun
    have hmem : a.schema ∈ schemas := hschema ▸ stop.schema_mem
    have hsound : a.Sound tables := ⟨checkTable_of_mem _ hmem, List.mem_map_of_mem hmem,
      revision_not_mem_mutable _ hmem, hschema ▸ hsteady⟩
    exact ⟨a, fun _ => ⟨hschema, hkey, hsound, hsame⟩⟩
  · exact ⟨⟨.node, Key.ofPreimage [], fun _ => .ok none⟩, fun h => absurd h hworks⟩

-- Stops for one record are one stop, unless the digests of two names collide.
theorem apart {errand : Stop → Errand} {stops : List Stop}
    (hdoes : ∀ stop ∈ stops, stop.Does answers (errand stop))
    (hkeys : Set.InjOn Sha256.digest (messages answers stops)) :
    Sweeps.Apart (stops.map errand) := by
  intro _ ha _ hb hsame
  obtain ⟨stop, hstop, rfl⟩ := List.mem_map.mp ha
  obtain ⟨other, hother, rfl⟩ := List.mem_map.mp hb
  obtain ⟨message, hmessage, hkey⟩ := Field.key_eq_ok (hdoes stop hstop).key
  obtain ⟨otherMessage, hotherMessage, hotherKey⟩ := Field.key_eq_ok (hdoes other hother).key
  have hdigest : Sha256.digest message = Sha256.digest otherMessage := by
    have hkeys : Key.ofPreimage message = Key.ofPreimage otherMessage := by
      rw [← hkey, ← hotherKey, hsame.2]
    exact congrArg Key.bytes hkeys
  have hpreimage := hkeys ⟨stop, hstop, by simp [message?, hmessage, Except.toOption]⟩
    ⟨other, hother, by simp [message?, hotherMessage, Except.toOption]⟩ hdigest
  subst hpreimage
  obtain ⟨hkind, hidentity⟩ := Key.compositePreimage_injective hmessage hotherMessage
  rw [eq_of_identity hkind hidentity]

end Stop

namespace Series

-- The stops for each of the four series, in the order of a walk.
def legs (series : Series) : List (List Stop) :=
  [series.channels.map .channel, series.nodes.map .node, series.peers.map .peer,
    series.policies.map fun (publicKey, channelId) => .policy publicKey channelId]

-- What is hashed to the keys of the records that a walk is about.
def messages (answers : (q : Question) → Except String q.Answer) (series : Series) : Set Bytes :=
  Stop.messages answers series.legs.flatten

-- The same series in other orders.
structure Shuffles (series other : Series) : Prop where
  channels : series.channels.Perm other.channels
  nodes : series.nodes.Perm other.nodes
  peers : series.peers.Perm other.peers
  policies : series.policies.Perm other.policies

variable {series other : Series}

theorem Shuffles.symm (h : series.Shuffles other) : other.Shuffles series :=
  ⟨h.channels.symm, h.nodes.symm, h.peers.symm, h.policies.symm⟩

theorem Shuffles.legs (h : series.Shuffles other) :
    List.Forall₂ List.Perm series.legs other.legs :=
  .cons (h.channels.map _) <| .cons (h.nodes.map _) <| .cons (h.peers.map _) <|
    .cons (h.policies.map _) .nil

theorem Shuffles.mem_iff (h : series.Shuffles other) {stop : Stop} :
    stop ∈ series.legs.flatten ↔ stop ∈ other.legs.flatten :=
  (List.Perm.flatten_congr h.legs).mem_iff

theorem Shuffles.messages (h : series.Shuffles other) :
    series.messages answers = other.messages answers := by
  simp only [Series.messages, Stop.messages, h.mem_iff]

theorem exists_table_of_mem_legs :
    ∀ leg ∈ series.legs, ∃ table, ∀ stop ∈ leg, stop.call.schema.table = table := by
  simp only [legs, List.forall_mem_cons, List.forall_mem_map]
  exact ⟨⟨"channels", fun _ _ => rfl⟩, ⟨"nodes", fun _ _ => rfl⟩, ⟨"peers", fun _ _ => rfl⟩,
    ⟨"policies", fun _ _ => rfl⟩, by simp⟩

end Series

-- What was counted on each leg, in the order of a walk.
def Summary.tallies (summary : Summary) : List Tally :=
  [summary.channels, summary.nodes, summary.peers, summary.policies]

namespace Procedure

variable {policy : RetryPolicy} {draw : Nat → Nat} {arrange : Series → Series}
  {graph : GraphReport} {peers : List PeerReport} {e e' : Environment} {summary : Summary}

-- A walk is a tour of its legs.
theorem execute_walk_iff (hgraph : answers .graph = .ok graph)
    (hpeers : answers .peers = .ok peers) :
    execute answers (walk policy draw arrange) e = (.ok summary, e') ↔
      execute answers (tour (fun stop => retried policy draw stop.procedure)
        (arrange (Series.of graph peers)).legs) e = (.ok summary.tallies, e') := by
  have hasked : execute answers (ask "graph" .graph) e = (.ok graph, e) :=
    execute_ask_of_ok hgraph
  have hpolled : execute answers (ask Schema.peer.kind .peers) e = (.ok peers, e) :=
    execute_ask_of_ok hpeers
  simp only [walk, execute_bind_eq_ok_iff, Series.legs, Summary.tallies, tour_cons, tally_map]
  constructor
  · rintro ⟨_, _, hfirst, _, _, hsecond, channels, e₁, hchannels, nodes, e₂, hnodes, peers, e₃,
      hpeers, policies, e₄, hpolicies, ⟨⟩⟩
    cases hasked.symm.trans hfirst
    cases hpolled.symm.trans hsecond
    exact ⟨channels, e₁, _, hchannels, ⟨nodes, e₂, _, hnodes, ⟨peers, e₃, _, hpeers,
      ⟨policies, e', [], hpolicies, rfl, rfl⟩, rfl⟩, rfl⟩, rfl⟩
  · rintro ⟨channels, e₁, _, hchannels, ⟨nodes, e₂, _, hnodes, ⟨peers, e₃, _, hpeers,
      ⟨policies, e₄, _, hpolicies, ⟨⟩, rfl⟩, rfl⟩, rfl⟩, heq⟩
    cases summary
    cases heq
    exact ⟨graph, e, hasked, _, e, hpolled, _, e₁, hchannels, _, e₂, hnodes, _, e₃, hpeers, _, _,
      hpolicies, rfl⟩

end Procedure

section Orders

open Procedure

variable {policy : RetryPolicy} {draw : Nat → Nat} {arrange : Series → Series}
  {graph : GraphReport} {peers : List PeerReport} {series other : Series} {e e' : Environment}
  {summary : Summary} {errand : Stop → Errand} {outcomes : List (List Outcome)}

-- What is to be done at every stop is known, and may be retried.
def Series.Ready (answers : (q : Question) → Except String q.Answer) (policy : RetryPolicy)
    (errand : Stop → Errand) (series : Series) : Prop :=
  ∀ stop ∈ series.legs.flatten, policy.validate = .ok () ∧ stop.Does answers (errand stop)

-- What is to be done on each leg.
def Series.errands (errand : Stop → Errand) (series : Series) : List (List Errand) :=
  series.legs.map (List.map errand)

theorem Series.flatten_errands (errand : Stop → Errand) (series : Series) :
    (series.errands errand).flatten = series.legs.flatten.map errand := List.map_flatten.symm

theorem Series.map_length_errands (errand : Stop → Errand) (series : Series) :
    (series.errands errand).map List.length = series.legs.map List.length := by
  simp [Series.errands, Function.comp_def]

theorem Series.Ready.shuffle (h : series.Ready answers policy errand)
    (hshuffle : other.Shuffles series) : other.Ready answers policy errand := fun stop hstop =>
  h stop (hshuffle.mem_iff.mp hstop)

theorem Series.Ready.sound (h : series.Ready answers policy errand) :
    ∀ a ∈ (series.errands errand).flatten, a.Sound Stop.tables := by
  rw [Series.flatten_errands]
  exact List.forall_mem_map.mpr fun stop hstop => (h stop hstop).2.fulfils.sound

theorem Series.Ready.apart (h : series.Ready answers policy errand)
    (hkeys : Set.InjOn Sha256.digest (series.messages answers)) :
    Sweeps.Apart (series.errands errand).flatten := by
  rw [Series.flatten_errands]
  exact Stop.apart (fun stop hstop => (h stop hstop).2) hkeys

-- Legs in another order come to the same.
theorem Series.Ready.tours (h : series.Ready answers policy errand)
    (hkeys : Set.InjOn Sha256.digest (series.messages answers)) (hrule : e.capacity.IsByLength)
    (hshuffle : series.Shuffles other) (htours : Tours (series.errands errand) e outcomes e') :
    ∃ later, outcomes.map Tally.of = later.map Tally.of ∧
      Tours (other.errands errand) e later e' := by
  have htable : ∀ leg ∈ series.errands errand, ∃ table, ∀ a ∈ leg, a.schema.table = table := by
    refine List.forall_mem_map.mpr fun leg hleg => ?_
    obtain ⟨table, htable⟩ := Series.exists_table_of_mem_legs leg hleg
    refine ⟨table, List.forall_mem_map.mpr fun stop hstop => ?_⟩
    rw [(h stop (List.mem_flatten_of_mem hleg hstop)).2.schema, htable stop hstop]
  have hperm : List.Forall₂ List.Perm (series.errands errand) (other.errands errand) := by
    rw [Series.errands, Series.errands, List.forall₂_map_left_iff, List.forall₂_map_right_iff]
    exact hshuffle.legs.imp fun _ _ hleg => hleg.map errand
  obtain ⟨later, hsame, hlater⟩ := htours.perm hperm htable (h.apart hkeys) hrule
  exact ⟨later, Tally.map_of_perm hsame, hlater⟩

theorem exists_tours_of_walk (hgraph : answers .graph = .ok graph)
    (hpeers : answers .peers = .ok peers) (hseries : series = Series.of graph peers)
    (harrange : (arrange series).Shuffles series) (hroom : e.HasRooms Stop.tables)
    (hkeys : Set.InjOn Sha256.digest (series.messages answers))
    (h : execute answers (walk policy draw arrange) e = (.ok summary, e')) :
    ∃ errand outcomes, series.Ready answers policy errand ∧
      Tours (series.errands errand) e.ample outcomes e'.ample ∧
      summary.tallies = outcomes.map Tally.of := by
  choose errand hdoes using Stop.exists_does answers
  have htour := (execute_walk_iff hgraph hpeers).mp h
  rw [← hseries] at htour
  have harranged : (arrange series).Ready answers policy errand := fun stop hstop =>
    ⟨(of_tour htour stop hstop).1, hdoes stop (of_tour htour stop hstop).2⟩
  have hready := harranged.shuffle harrange.symm
  obtain ⟨outcomes, htours, htallies⟩ :=
    tours_of_tour (fun stop hstop => (harranged stop hstop).2.fulfils) hroom htour
  rw [← harrange.messages] at hkeys
  obtain ⟨later, hsame, hlater⟩ := harranged.tours hkeys (fun _ _ => rfl) harrange htours
  exact ⟨errand, later, hready, hlater, htallies.trans hsame⟩

-- What can be done in one order if there is room for everything can be done in any order on
-- a map that everything fits.
theorem walk_of_tours (hgraph : answers .graph = .ok graph) (hpeers : answers .peers = .ok peers)
    (hseries : series = Series.of graph peers) (harrange : (arrange series).Shuffles series)
    (hroom : e.HasRooms Stop.tables)
    (hkeys : Set.InjOn Sha256.digest (series.messages answers))
    (hready : series.Ready answers policy errand) (hfits : e.Fits e')
    (h : Tours (series.errands errand) e.ample outcomes e'.ample)
    (hsummary : summary.tallies = outcomes.map Tally.of) :
    execute answers (walk policy draw arrange) e =
      (.ok summary, e'.remapped e.mapSize e.capacity) := by
  obtain ⟨later, hsame, hlater⟩ := hready.tours hkeys (fun _ _ => rfl) harrange.symm h
  have harranged := hready.shuffle harrange
  have hapart := harranged.apart (harrange.messages ▸ hkeys)
  have hfirst : e.Mixes e'.ample e.ample.tables :=
    Environment.mixes_tables_iff.mpr fun _ _ _ hfound => .inl hfound
  have htours : Tours ((arrange series).errands errand) e later
      (e'.remapped e.mapSize e.capacity) :=
    hlater.remapped hroom harranged.sound hapart ⟨hfits.rows, hfits.tables⟩ hfirst
  have hfulfils : ∀ stop ∈ (arrange series).legs.flatten, policy.validate = .ok () ∧
      Fulfils answers Stop.tables stop.procedure (errand stop) := fun stop hstop =>
    ⟨(harranged stop hstop).1, (harranged stop hstop).2.fulfils⟩
  rw [execute_walk_iff hgraph hpeers, ← hseries, hsummary, hsame]
  exact tour_of_tours hfulfils hroom htours

end Orders

open Procedure in
-- The order in which a walk visits what it visits does not matter, as long as everything
-- fits the map, no two keys collide and nobody else writes: in any other order it comes to
-- the same summary and the same store. All that it visits is counted, and a walk right
-- after it finds nothing to do.
theorem walk_converges (policy : RetryPolicy) (draw draw' : Nat → Nat)
    (arrange arrange' : Series → Series) (answers : (q : Question) → Except String q.Answer)
    (graph : GraphReport) (peers : List PeerReport) (e e' : Environment) (summary : Summary)
    (hgraph : answers .graph = .ok graph) (hpeers : answers .peers = .ok peers) :
    let series := Series.of graph peers
    (arrange series).Shuffles series → (arrange' series).Shuffles series →
    e.HasRooms Stop.tables →
    Set.InjOn Sha256.digest (series.messages answers) →
    e.Fits e' →
    execute answers (walk policy draw arrange) e = (.ok summary, e') →
    execute answers (walk policy draw' arrange') e = (.ok summary, e') ∧
    summary.channels.total = series.channels.length ∧
    summary.nodes.total = series.nodes.length ∧
    summary.peers.total = series.peers.length ∧
    summary.policies.total = series.policies.length ∧
    execute answers (walk policy draw' arrange') e' =
      (.ok {
        channels := ⟨0, 0, series.channels.length⟩
        nodes := ⟨0, 0, series.nodes.length⟩
        peers := ⟨0, 0, series.peers.length⟩
        policies := ⟨0, 0, series.policies.length⟩ }, e') := by
  intro series harrange harrange' hroom hkeys hfits hrun
  have hseries : series = Series.of graph peers := rfl
  clear_value series
  obtain ⟨errand, outcomes, hready, htours, hsummary⟩ :=
    exists_tours_of_walk hgraph hpeers hseries harrange hroom hkeys hrun
  have hagain (draw : Nat → Nat) {arrange : Series → Series}
      (harrange : (arrange series).Shuffles series) :
      execute answers (walk policy draw arrange) e =
        (.ok summary, e'.remapped e.mapSize e.capacity) :=
    walk_of_tours hgraph hpeers hseries harrange hroom hkeys hready hfits htours hsummary
  -- What the first walk comes to is what any walk comes to, and so is its map.
  have hmap : e'.remapped e.mapSize e.capacity = e' := by
    have hfirst := hagain draw harrange
    rw [hrun] at hfirst
    exact (congrArg Prod.snd hfirst).symm
  rw [hmap] at hagain
  have htotals : summary.tallies.map Tally.total = series.legs.map List.length := by
    rw [hsummary, Tally.map_total_of, htours.length_eq, Series.map_length_errands]
  have hlast : e'.HasRooms Stop.tables := htours.hasRooms hroom hready.sound
  have hsettled := htours.settled hroom hready.sound (hready.apart hkeys)
  have hsize : (e'.remapped e.mapSize e.capacity).mapSize = e'.mapSize := by rw [hmap]
  have hcapacity : (e'.remapped e.mapSize e.capacity).capacity = e'.capacity := by rw [hmap]
  have hstill := hfits.self hsize hcapacity
  simp only [Summary.tallies, Series.legs, List.map_cons, List.map_nil, List.length_map,
    List.cons.injEq, and_true] at htotals
  obtain ⟨hchannels, hnodes, hpeers', hpolicies⟩ := htotals
  refine ⟨hagain draw' harrange', hchannels, hnodes, hpeers', hpolicies, ?_⟩
  apply walk_of_tours hgraph hpeers hseries harrange' hlast hkeys hready hstill
    (.of_settled hsettled)
  simp [Summary.tallies, Series.errands, Series.legs, Tally.of_replicate]

open Procedure in
-- A node that is named twice is stored once, whichever of its two visits is the first.
theorem walk_converges_reversed :
    let terms : PolicyReport :=
      { publicKey := "02", isDisabled := some false, updatedAt := some "now" }
    let report : ChannelReport :=
      { id := "1x1x1", capacity := 5, transactionId := "a1", policies := [terms] }
    let outlook : Outlook :=
      { identity := "01"
        nodes := OrderedMap.ofList [("02", {})]
        channels := OrderedMap.ofList [("1x1x1", report)]
        peers := [{ publicKey := "02" }]
        statedGraph := some { channels := [report], nodes := ["02", "02", "03"] } }
    let answers : (q : Question) → Except String q.Answer := fun q => .ok (outlook.answer q)
    let e := Environment.start Config.minimal 0 ∅
    let reversed : Series → Series := fun series => { series with nodes := series.nodes.reverse }
    let run := execute answers (walk .never id id) e
    run.1 = .ok ⟨⟨1, 0, 2⟩, ⟨1, 0, 0⟩, ⟨1, 0, 0⟩, ⟨1, 0, 0⟩⟩ ∧
      execute answers (walk .never id reversed) e = run ∧
      execute answers (walk .never id reversed) run.2 =
        (.ok ⟨⟨0, 0, 3⟩, ⟨0, 0, 1⟩, ⟨0, 0, 1⟩, ⟨0, 0, 1⟩⟩, run.2) := by
  intro terms report outlook answers e reversed run
  let series := Series.of outlook.graph outlook.peers
  have hsummary : run.1 = .ok ⟨⟨1, 0, 2⟩, ⟨1, 0, 0⟩, ⟨1, 0, 0⟩, ⟨1, 0, 0⟩⟩ := by decide +kernel
  have hrun : run = (.ok ⟨⟨1, 0, 2⟩, ⟨1, 0, 0⟩, ⟨1, 0, 0⟩, ⟨1, 0, 0⟩⟩, run.2) :=
    Prod.ext hsummary rfl
  have hsame : series.Shuffles series := ⟨.refl _, .refl _, .refl _, .refl _⟩
  have hreversed : (reversed series).Shuffles series :=
    ⟨.refl _, List.reverse_perm _, .refl _, .refl _⟩
  have hroom : e.HasRooms Stop.tables := by decide +kernel
  have hweight : e.tables.weight + run.2.tables.weight ≤ e.mapSize.toNat := by decide +kernel
  have hfits : e.Fits run.2 := Environment.fits_of_weight rfl hweight
  have hdistinct : ∀ a ∈ series.legs.flatten, ∀ b ∈ series.legs.flatten,
      (a.message? answers).map Sha256.digest = (b.message? answers).map Sha256.digest →
        a.message? answers = b.message? answers := by
    decide +kernel
  have hkeys : Set.InjOn Sha256.digest (series.messages answers) := by
    rintro message ⟨a, ha, hmessage⟩ other ⟨b, hb, hother⟩ hdigest
    have hequal := hdistinct a ha b hb
    rw [hmessage, hother, Option.map_some, Option.map_some, hdigest] at hequal
    exact Option.some.inj (hequal rfl)
  obtain ⟨hother, _, _, _, _, hagain⟩ := walk_converges .never id id id reversed answers
    outlook.graph outlook.peers e run.2 _ rfl rfl hsame hreversed hroom hkeys hfits hrun
  exact ⟨hsummary, hother.trans hrun.symm, hagain⟩

end LightningRecords
