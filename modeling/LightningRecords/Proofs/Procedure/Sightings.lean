import LightningRecords.Proofs.Procedure.Answered

namespace LightningRecords

open Difference (Alike)

namespace Record

-- An attribute that is a list with the given members.
def Lists (record : Record) (name : String) (members : List Value) : Prop :=
  ∃ items, record.get? name = some (.list items) ∧ ∀ value, value ∈ items ↔ value ∈ members

-- An attribute that holds the bytes that a text spells.
def HoldsBytes (record : Record) (name text : String) : Prop :=
  ∃ bytes, Hex.decode text = .ok bytes ∧ record.get? name = some (.bytes bytes)

variable {schema : Schema} {original fresh after : Record} {name : String}

theorem Lists.of_get? {members : List Value} (h : fresh.get? name = some (.list members)) :
    fresh.Lists name members :=
  ⟨members, h, fun _ => Iff.rfl⟩

-- What a list is settled to has the members of the fresh one, whichever of both it is.
theorem Lists.settled {members earlier : List Value} (hname : name ∈ schema.mutable)
    (horiginal : original.Lists name earlier) (hfresh : fresh.Lists name members)
    (h : schema.Settled (some original) fresh after) : after.Lists name members := by
  obtain ⟨items, hitems, hmembers⟩ := hfresh
  rcases h name hname with heq | ⟨heq, halike⟩
  · exact ⟨items, heq.trans hitems, hmembers⟩
  · obtain ⟨before, hbefore, _⟩ := horiginal
    have hstored : stored? (some original) name = some (.list before) := hbefore
    rw [hstored, hitems] at halike
    refine ⟨before, heq.trans hstored, fun value => ?_⟩
    rcases halike with hsame | ⟨_, _, has, hbs, hiff⟩
    · cases hsame
      exact hmembers value
    · cases has
      cases hbs
      exact (hiff value).trans (hmembers value)

theorem HoldsBytes.congr {text : String} (h : original.HoldsBytes name text)
    (hsame : after.get? name = original.get? name) : after.HoldsBytes name text := by
  obtain ⟨bytes, hdecode, hget⟩ := h
  exact ⟨bytes, hdecode, hsame.trans hget⟩

end Record

section Features

-- A list of features that says anything.
def named? (features : List UInt32) : Option (List UInt32) :=
  if features.isEmpty then none else some features

variable {ι : Type} (features : ι → List UInt32)

-- The features that a history names last.
def featuresTold (history : List ι) : List Value :=
  ((lastTold (fun item => named? (features item)) history).getD []).map Value.ofUInt32

theorem featuresTold_append (history : List ι) (item : ι) :
    featuresTold features (history ++ [item]) =
      if (features item).isEmpty then featuresTold features history
      else (features item).map Value.ofUInt32 := by
  unfold featuresTold named?
  rw [lastTold_append]
  split <;> rfl

theorem lists_first (item : ι) {record : Record}
    (h : record.get? "features" = some (keptFeatures none (features item))) :
    record.Lists "features" (featuresTold features [item]) := by
  apply Record.Lists.of_get?
  rw [h, ← List.nil_append [item], featuresTold_append, keptFeatures]
  by_cases hempty : (features item).isEmpty
  · rw [if_pos hempty, if_pos hempty, List.isEmpty_iff.mp hempty]
    rfl
  · rw [if_neg hempty, if_neg hempty]

theorem lists_kept (history : List ι) (item : ι) {original record : Record}
    (horiginal : original.Lists "features" (featuresTold features history))
    (h : record.get? "features" = some (keptFeatures (some original) (features item))) :
    record.Lists "features" (featuresTold features (history ++ [item])) := by
  rw [featuresTold_append]
  by_cases hempty : (features item).isEmpty
  · obtain ⟨items, hitems, hmembers⟩ := horiginal
    have hstored : stored? (some original) "features" = some (.list items) := hitems
    rw [keptFeatures, if_pos hempty, hstored] at h
    rw [if_pos hempty]
    exact ⟨items, h, hmembers⟩
  · rw [keptFeatures, if_neg hempty] at h
    rw [if_neg hempty]
    exact .of_get? h

end Features

namespace NodeReport

-- What the record of a node says after it was reported, the last time by the given report.
structure Seen (publicKey : String) (reports : List NodeReport) (last : NodeReport)
    (record : Record) : Prop where
  identity : record.HoldsBytes "public_key" publicKey
  nickname : record.get? "alias" = some (.text last.nickname)
  color : record.get? "color" = some (.text last.color)
  sockets : record.Lists "sockets" (last.sockets.map Value.text)
  features : record.Lists "features" (featuresTold NodeReport.features reports)
  updatedAt : record.get? "updated_at" =
    (lastTold NodeReport.updatedAt reports).map Value.text

-- What is stored after any number of reports.
inductive Sighted (publicKey : String) : List NodeReport → Option Record → Prop where
  | never : Sighted publicKey [] none
  | last {earlier : List NodeReport} {last : NodeReport} {record : Record}
      (h : Seen publicKey (earlier ++ [last]) last record) :
      Sighted publicKey (earlier ++ [last]) (some record)

variable {publicKey : String} {bytes : Bytes} {earlier : List NodeReport}
  {report previous : NodeReport} {original after : Record}

theorem seen_first (hbytes : Hex.decode publicKey = .ok bytes)
    (h : ∀ name, name ≠ Record.revisionAttribute →
      after.get? name = (report.record bytes none).get? name) :
    Seen publicKey [report] report after where
  identity := ⟨bytes, hbytes, (h _ (by decide)).trans (by simp [record, OrderedMap.ofList])⟩
  nickname := (h _ (by decide)).trans (by simp [record, OrderedMap.ofList])
  color := (h _ (by decide)).trans (by simp [record, OrderedMap.ofList])
  sockets := .of_get? ((h _ (by decide)).trans (by simp [record, OrderedMap.ofList]))
  features := lists_first _ report ((h _ (by decide)).trans (by simp [record, OrderedMap.ofList]))
  updatedAt := (h _ (by decide)).trans (by simp [record, lastTold, stored?, OrderedMap.ofList])

theorem seen_again (h : Seen publicKey earlier previous original)
    (hsettled : Schema.node.Settled (some original) (report.record bytes (some original)) after)
    (hothers : original.AgreeBut Schema.node.mutable after) :
    Seen publicKey (earlier ++ [report]) report after where
  identity := h.identity.congr (hothers _ (by decide) (by decide))
  nickname := hsettled.get?_eq (by decide) rfl (by simp [record, OrderedMap.ofList])
  color := hsettled.get?_eq (by decide) rfl (by simp [record, OrderedMap.ofList])
  sockets := .settled (by decide) (h.sockets) (.of_get? (by simp [record, OrderedMap.ofList]))
    hsettled
  features := .settled (by decide) (h.features)
    (lists_kept _ earlier report h.features (by simp [record, OrderedMap.ofList])) hsettled
  updatedAt := by
    have hstored : stored? (some original) "updated_at" =
        (lastTold NodeReport.updatedAt earlier).map Value.text := h.updatedAt
    have hfresh : (report.record bytes (some original)).get? "updated_at" =
        (lastTold NodeReport.updatedAt (earlier ++ [report])).map Value.text := by
      simp [record, OrderedMap.ofList, hstored, Option.map_or]
    rw [← hfresh]
    apply hsettled.get?_of_plain (by decide)
    · rw [hstored]
      exact Value.isPlain_of_map fun _ => rfl
    · rw [hfresh]
      exact Value.isPlain_of_map fun _ => rfl

-- A report is seen at once, and a call without one changes nothing.
theorem Sighted.append {reports : List NodeReport} {stored result : Option Record}
    (h : Sighted publicKey reports stored) (hbytes : Hex.decode publicKey = .ok bytes)
    {told : Option NodeReport}
    (hleaves : Schema.node.Leaves stored (told.map fun report => report.record bytes stored)
      result) :
    Sighted publicKey (reports ++ told.toList) result := by
  cases told with
  | none =>
    cases hleaves
    rw [Option.toList_none, List.append_nil]
    exact h
  | some report =>
    cases h with
    | never =>
      cases hleaves with
      | first =>
        have hseen : Seen publicKey ([] ++ [report]) report ((report.record bytes none).insert
            Record.revisionAttribute (.int Schema.baseRevision)) :=
          seen_first hbytes fun name hname => OrderedMap.get?_insert_of_ne _ _ hname
        exact .last hseen
    | last h =>
      obtain ⟨after, rfl, hsettled, hothers⟩ := hleaves.settled (by decide)
      exact .last (seen_again h hsettled hothers)

theorem Sighted.tells {reports : List NodeReport} {stored : Option Record}
    (h : Sighted publicKey reports stored) :
    (reports = [] → stored = none) ∧ ∀ last, reports.getLast? = some last →
      ∃ record, stored = some record ∧ Seen publicKey reports last record := by
  cases h with
  | never => exact ⟨fun _ => rfl, by simp⟩
  | last h =>
    refine ⟨by simp, fun last hlast => ?_⟩
    rw [List.getLast?_concat] at hlast
    cases hlast
    exact ⟨_, rfl, h⟩

end NodeReport

namespace PeerReport

-- What the record of a peer says after it was listed, the last time with the given report.
structure Seen (localKey publicKey : String) (reports : List PeerReport) (last : PeerReport)
    (isListed : Bool) (record : Record) : Prop where
  identity : record.HoldsBytes "public_key" publicKey
  origin : record.HoldsBytes "from" localKey
  isConnected : record.get? "is_connected" = some (.bool isListed)
  isInbound : record.get? "is_inbound" = some (.bool last.isInbound)
  socket : record.get? "socket" = some (.text last.socket)
  isSyncPeer : record.get? "is_sync_peer" = last.isSyncPeer.map Value.bool
  features : record.Lists "features" (featuresTold PeerReport.features reports)

-- What is stored after any number of answers, each with the report of the peer if it was
-- listed. Absences before the first report go unnoticed.
inductive Sighted (localKey publicKey : String) : List (Option PeerReport) → Option Record → Prop
  where
  | never {listings : List (Option PeerReport)} (h : listings.filterMap id = []) :
      Sighted localKey publicKey listings none
  | last {listings : List (Option PeerReport)} {earlier : List PeerReport} {last : PeerReport}
      {record : Record} (hreports : listings.filterMap id = earlier ++ [last])
      (h : Seen localKey publicKey (earlier ++ [last]) last (listings.getLast?.join.isSome)
        record) :
      Sighted localKey publicKey listings (some record)

variable {localKey publicKey : String} {localBytes bytes : Bytes} {earlier : List PeerReport}
  {report previous : PeerReport} {original fresh after : Record} {isListed : Bool}

theorem seen_first (hlocal : Hex.decode localKey = .ok localBytes)
    (hbytes : Hex.decode publicKey = .ok bytes)
    (h : ∀ name, name ≠ Record.revisionAttribute →
      after.get? name = (report.record localBytes bytes none).get? name) :
    Seen localKey publicKey [report] report true after where
  identity := ⟨bytes, hbytes, (h _ (by decide)).trans (by simp [record, OrderedMap.ofList])⟩
  origin := ⟨localBytes, hlocal, (h _ (by decide)).trans (by simp [record, OrderedMap.ofList])⟩
  isConnected := (h _ (by decide)).trans (by simp [record, OrderedMap.ofList])
  isInbound := (h _ (by decide)).trans (by simp [record, OrderedMap.ofList])
  socket := (h _ (by decide)).trans (by simp [record, OrderedMap.ofList])
  isSyncPeer := (h _ (by decide)).trans (by simp [record, OrderedMap.ofList])
  features := lists_first _ report ((h _ (by decide)).trans (by simp [record, OrderedMap.ofList]))

theorem isSyncPeer_settled (h : Seen localKey publicKey earlier previous isListed original)
    (hsettled : Schema.peer.Settled (some original) fresh after)
    (hfresh : fresh.get? "is_sync_peer" = report.isSyncPeer.map Value.bool) :
    after.get? "is_sync_peer" = report.isSyncPeer.map Value.bool := by
  have hstored : stored? (some original) "is_sync_peer" = previous.isSyncPeer.map Value.bool :=
    h.isSyncPeer
  rw [← hfresh]
  apply hsettled.get?_of_plain (by decide)
  · rw [hstored]
    exact Value.isPlain_of_map fun _ => rfl
  · rw [hfresh]
    exact Value.isPlain_of_map fun _ => rfl

theorem seen_again (h : Seen localKey publicKey earlier previous isListed original)
    (hsettled : Schema.peer.Settled (some original)
      (report.record localBytes bytes (some original)) after)
    (hothers : original.AgreeBut Schema.peer.mutable after) :
    Seen localKey publicKey (earlier ++ [report]) report true after where
  identity := h.identity.congr (hothers _ (by decide) (by decide))
  origin := h.origin.congr (hothers _ (by decide) (by decide))
  isConnected := hsettled.get?_eq (by decide) rfl (by simp [record, OrderedMap.ofList])
  isInbound := hsettled.get?_eq (by decide) rfl (by simp [record, OrderedMap.ofList])
  socket := hsettled.get?_eq (by decide) rfl (by simp [record, OrderedMap.ofList])
  isSyncPeer := isSyncPeer_settled h hsettled (by simp [record, OrderedMap.ofList])
  features := .settled (by decide) h.features
    (lists_kept _ earlier report h.features (by simp [record, OrderedMap.ofList])) hsettled

-- A peer that is gone is remembered as it was when it was listed last.
theorem seen_gone (h : Seen localKey publicKey earlier previous isListed original)
    (hsettled : Schema.peer.Settled (some original)
      (original.insert "is_connected" (.bool false)) after)
    (hothers : original.AgreeBut Schema.peer.mutable after) :
    Seen localKey publicKey earlier previous false after where
  identity := h.identity.congr (hothers _ (by decide) (by decide))
  origin := h.origin.congr (hothers _ (by decide) (by decide))
  isConnected := hsettled.get?_eq (by decide) rfl (OrderedMap.get?_insert_self _ _ _)
  isInbound := hsettled.get?_eq (by decide) rfl (by simp [h.isInbound])
  socket := hsettled.get?_eq (by decide) rfl (by simp [h.socket])
  isSyncPeer := isSyncPeer_settled h hsettled (by simp [h.isSyncPeer])
  features := by
    obtain ⟨items, hitems, hmembers⟩ := h.features
    exact .settled (by decide) h.features ⟨items, by simp [hitems], hmembers⟩ hsettled

-- It does not matter whether a peer that is not listed was listed before: the record of one
-- that was not says so already.
theorem exists_seen_of_absent {result : Option Record}
    (h : Seen localKey publicKey earlier previous isListed original)
    (hleaves : Schema.peer.Leaves (some original) (disconnected? (some original)) result) :
    ∃ after, result = some after ∧ Seen localKey publicKey earlier previous false after := by
  cases isListed with
  | false =>
    have hidle : disconnected? (some original) = none := by
      simp [disconnected?, h.isConnected]
    rw [hidle] at hleaves
    cases hleaves
    exact ⟨original, rfl, h⟩
  | true =>
    have hgone : disconnected? (some original) =
        some (original.insert "is_connected" (.bool false)) := by
      simp [disconnected?, h.isConnected]
    rw [hgone] at hleaves
    obtain ⟨after, rfl, hsettled, hothers⟩ := hleaves.settled (by decide)
    exact ⟨after, rfl, seen_gone h hsettled hothers⟩

-- What one answer makes of the record: a report of a peer that is listed, or else its
-- being gone.
def observed (localBytes bytes : Bytes) (stored : Option Record) :
    Option PeerReport → Option Record
  | some report => some (report.record localBytes bytes stored)
  | none => disconnected? stored

theorem Sighted.append {listings : List (Option PeerReport)} {stored result : Option Record}
    (h : Sighted localKey publicKey listings stored)
    (hlocal : Hex.decode localKey = .ok localBytes) (hbytes : Hex.decode publicKey = .ok bytes)
    {listing : Option PeerReport}
    (hleaves : Schema.peer.Leaves stored (observed localBytes bytes stored listing) result) :
    Sighted localKey publicKey (listings ++ [listing]) result := by
  cases listing with
  | some report =>
    have hreports : (listings ++ [some report]).filterMap id =
        listings.filterMap id ++ [report] := by simp
    cases h with
    | never hnever =>
      rw [hnever] at hreports
      cases hleaves with
      | first =>
        refine .last hreports ?_
        simpa using seen_first hlocal hbytes fun name hname =>
          OrderedMap.get?_insert_of_ne _ _ hname
    | last hearlier h =>
      rw [hearlier] at hreports
      obtain ⟨after, rfl, hsettled, hothers⟩ := hleaves.settled (by decide)
      refine .last hreports ?_
      simpa using seen_again h hsettled hothers
  | none =>
    have hreports : (listings ++ [none]).filterMap id = listings.filterMap id := by simp
    cases h with
    | never hnever =>
      cases hleaves
      exact .never (hreports.trans hnever)
    | last hearlier h =>
      obtain ⟨after, rfl, hseen⟩ := exists_seen_of_absent h hleaves
      refine .last (hreports.trans hearlier) ?_
      simpa using hseen

theorem Sighted.tells {listings : List (Option PeerReport)} {stored : Option Record}
    (h : Sighted localKey publicKey listings stored) :
    (listings.filterMap id = [] → stored = none) ∧
      ∀ last, (listings.filterMap id).getLast? = some last → ∃ record, stored = some record ∧
        Seen localKey publicKey (listings.filterMap id) last listings.getLast?.join.isSome
          record := by
  cases h with
  | never hnever => exact ⟨fun _ => rfl, by rw [hnever]; simp⟩
  | last hreports h =>
    rw [hreports]
    refine ⟨by simp, fun last hlast => ?_⟩
    rw [List.getLast?_concat] at hlast
    cases hlast
    exact ⟨_, rfl, h⟩

end PeerReport

namespace Procedure

variable {answers : (q : Question) → Except String q.Answer} {key : Key}
  {stored : Option Record} {outcome : Outcome} {publicKey localKey : String} {e e' : Environment}

-- The peer as an answer lists it.
def listing? (publicKey : String) (answers : (q : Question) → Except String q.Answer) :
    Option PeerReport :=
  (answers .peers).toOption.bind fun peers => peers.find? fun peer => peer.publicKey = publicKey

theorem leaves_node (hkey : Field.key .node [publicKey] = .ok key)
    (hheld : e.held Schema.node.table key = .ok stored)
    (h : execute answers (node publicKey) e = (.ok outcome, e')) :
    ∃ bytes, Hex.decode publicKey = .ok bytes ∧
      ∃ after, e'.held Schema.node.table key = .ok after ∧ Schema.node.Leaves stored
        ((answers (.node publicKey)).toOption.join.map fun report => report.record bytes stored)
        after := by
  obtain ⟨bytes, found, _, report, hbytes, hfound, hreport, hreconciled⟩ := node_reconciled h
  cases hkey.symm.trans hfound
  cases hheld.symm.trans hreconciled.held
  have hstorable := hreconciled.storable
  have hreported : (answers (.node publicKey)).toOption.join = report := by
    rw [hreport]
    rfl
  rw [hreported]
  refine ⟨bytes, hbytes, hreconciled.leaves (by decide) ?_ ?_⟩
  · intro record hrecord
    obtain ⟨report, _, rfl⟩ := Option.map_eq_some_iff.mp hrecord
    exact (report.drafts_record hstorable bytes).storable
  · rintro rfl record hrecord
    obtain ⟨report, _, rfl⟩ := Option.map_eq_some_iff.mp hrecord
    exact (report.drafts_record hstorable bytes).revision

theorem leaves_peer (hidentity : answers .identity = .ok localKey)
    (hkey : Field.key .peer [localKey, publicKey] = .ok key)
    (hheld : e.held Schema.peer.table key = .ok stored)
    (h : execute answers (peer publicKey) e = (.ok outcome, e')) :
    ∃ localBytes bytes, Hex.decode localKey = .ok localBytes ∧ Hex.decode publicKey = .ok bytes ∧
      ∃ after, e'.held Schema.peer.table key = .ok after ∧ Schema.peer.Leaves stored
        (PeerReport.observed localBytes bytes stored (listing? publicKey answers)) after := by
  obtain ⟨self, localBytes, bytes, found, _, peers, hself, hlocal, hbytes, hfound, hpeers,
    hreconciled⟩ := peer_reconciled h
  cases hidentity.symm.trans hself
  cases hkey.symm.trans hfound
  cases hheld.symm.trans hreconciled.held
  have hstorable := hreconciled.storable
  have hlisting : listing? publicKey answers =
      peers.find? fun peer => peer.publicKey = publicKey := by
    rw [listing?, hpeers]
    rfl
  refine ⟨localBytes, bytes, hlocal, hbytes, ?_⟩
  rw [hlisting]
  cases hfind : peers.find? fun peer => peer.publicKey = publicKey with
  | some report =>
    rw [hfind] at hreconciled
    have hdrafts := report.drafts_record hstorable localBytes bytes
    refine hreconciled.leaves (by decide) ?_ ?_
    · rintro _ ⟨⟩
      exact hdrafts.storable
    · rintro rfl _ ⟨⟩
      exact hdrafts.revision
  | none =>
    rw [hfind] at hreconciled
    refine hreconciled.leaves (by decide) ?_ ?_
    · exact fun record hrecord => storable_disconnected? hstorable hrecord
    · rintro rfl record hrecord
      cases hrecord

section Sighted

variable {sources : List ((q : Question) → Except String q.Answer)}

theorem node_sighted (hkey : Field.key .node [publicKey] = .ok key)
    (hvacant : e.held Schema.node.table key = .ok none)
    (hcalls : Succession (fun answers => execute answers (node publicKey)) Schema.node.table key
      sources e e') :
    ∃ stored, e'.held Schema.node.table key = .ok stored ∧ NodeReport.Sighted publicKey
      (sources.filterMap fun answers => (answers (.node publicKey)).toOption.join) stored := by
  refine hcalls.holds (fun sources => NodeReport.Sighted publicKey
    (sources.filterMap fun answers => (answers (.node publicKey)).toOption.join)) hvacant .never ?_
  intro earlier answers stored e outcome e' _ hsighted hheld hcall
  obtain ⟨bytes, hbytes, after, hafter, hleaves⟩ := leaves_node hkey hheld hcall
  refine ⟨after, hafter, ?_⟩
  have happend := hsighted.append hbytes hleaves
  rw [List.filterMap_append]
  cases hreport : (answers (.node publicKey)).toOption.join with
  | none => simpa [hreport] using happend
  | some report => simpa [hreport] using happend

theorem peer_sighted (hidentity : ∀ answers ∈ sources, answers .identity = .ok localKey)
    (hkey : Field.key .peer [localKey, publicKey] = .ok key)
    (hvacant : e.held Schema.peer.table key = .ok none)
    (hcalls : Succession (fun answers => execute answers (peer publicKey)) Schema.peer.table key
      sources e e') :
    ∃ stored, e'.held Schema.peer.table key = .ok stored ∧
      PeerReport.Sighted localKey publicKey (sources.map (listing? publicKey)) stored := by
  refine hcalls.holds (fun sources => PeerReport.Sighted localKey publicKey
    (sources.map (listing? publicKey))) hvacant (.never rfl) ?_
  intro earlier answers stored e outcome e' hinitial hsighted hheld hcall
  have hlocal := hidentity answers (hinitial.subset (by simp))
  obtain ⟨localBytes, bytes, hlocal, hbytes, after, hafter, hleaves⟩ :=
    leaves_peer hlocal hkey hheld hcall
  refine ⟨after, hafter, ?_⟩
  rw [List.map_append]
  exact hsighted.append hlocal hbytes hleaves

end Sighted

-- The record of a node is the fold of what was reported of it, and that of a peer the fold
-- of the lists that it was or was not on.
theorem sightings_retold (publicKey localKey : String) (key : Key) (e e' : Environment) :
    (∀ sources : List ((q : Question) → Except String q.Answer),
      Field.key Schema.node [publicKey] = .ok key →
      e.held Schema.node.table key = .ok none →
      Succession (fun answers => execute answers (node publicKey)) Schema.node.table key sources
        e e' →
      let reports := sources.filterMap fun answers => (answers (.node publicKey)).toOption.join
      (reports = [] → e'.held Schema.node.table key = .ok none) ∧
        ∀ last, reports.getLast? = some last → ∃ record,
          e'.held Schema.node.table key = .ok (some record) ∧
            NodeReport.Seen publicKey reports last record) ∧
    ∀ sources : List ((q : Question) → Except String q.Answer),
      (∀ answers ∈ sources, answers .identity = .ok localKey) →
      Field.key Schema.peer [localKey, publicKey] = .ok key →
      e.held Schema.peer.table key = .ok none →
      Succession (fun answers => execute answers (peer publicKey)) Schema.peer.table key sources
        e e' →
      let listings := sources.map (listing? publicKey)
      (listings.filterMap id = [] → e'.held Schema.peer.table key = .ok none) ∧
        ∀ last, (listings.filterMap id).getLast? = some last → ∃ record,
          e'.held Schema.peer.table key = .ok (some record) ∧
            PeerReport.Seen localKey publicKey (listings.filterMap id) last
              (listings.getLast?.join.isSome) record := by
  constructor
  · intro sources hkey hvacant hcalls reports
    obtain ⟨stored, hstored, hsighted⟩ := node_sighted hkey hvacant hcalls
    obtain ⟨hnever, hlast⟩ := hsighted.tells
    refine ⟨fun hnone => hnever hnone ▸ hstored, fun last hreport => ?_⟩
    obtain ⟨record, rfl, hseen⟩ := hlast last hreport
    exact ⟨record, hstored, hseen⟩
  · intro sources hidentity hkey hvacant hcalls listings
    obtain ⟨stored, hstored, hsighted⟩ := peer_sighted hidentity hkey hvacant hcalls
    obtain ⟨hnever, hlast⟩ := hsighted.tells
    refine ⟨fun hnone => hnever hnone ▸ hstored, fun last hreport => ?_⟩
    obtain ⟨record, rfl, hseen⟩ := hlast last hreport
    exact ⟨record, hstored, hseen⟩

theorem sightings_retold_peer :
    let report : PeerReport := { publicKey := "03", features := [1], isInbound := true, socket := "s" }
    let source : List PeerReport → (q : Question) → Except String q.Answer
      | _, .identity => .ok "02"
      | peers, .peers => .ok peers
      | _, _ => .error ""
    let once := execute (source [report]) (peer "03") (Environment.start Config.minimal 0 ∅)
    let twice := execute (source []) (peer "03") once.2
    ∃ key record, Field.key Schema.peer ["02", "03"] = .ok key ∧
      twice.2.held Schema.peer.table key = .ok (some record) ∧
      PeerReport.Seen "02" "03" [report] report false record := by
  intro report source once twice
  obtain ⟨key, hkey⟩ : ∃ key, Field.key Schema.peer ["02", "03"] = .ok key :=
    exists_of_isOk (by decide +kernel)
  have honce : once.1 = .ok (.created (report.record [2] [3] none)) := by decide +kernel
  have htwice : twice.1 = .ok (.updated
      (OrderedMap.ofList [("is_connected", .bool true)])
      (OrderedMap.ofList [("is_connected", .bool false)])
      ((report.record [2] [3] none).insert Record.revisionAttribute (.int 0))) := by
    decide +kernel
  have hfirst := Prod.fst_eq_iff.mp honce
  have hsecond := Prod.fst_eq_iff.mp htwice
  have hlisted : Succession (fun answers => execute answers (peer "03")) Schema.peer.table key
      ([] ++ [source [report]]) (Environment.start Config.minimal 0 ∅) once.2 :=
    .step (.start _) rfl hfirst
  have hgone : Succession (fun answers => execute answers (peer "03")) Schema.peer.table key
      ([source [report]] ++ [source []]) (Environment.start Config.minimal 0 ∅) twice.2 :=
    .step hlisted rfl hsecond
  have hretold := (sightings_retold "03" "02" key (Environment.start Config.minimal 0 ∅) twice.2).2
    [source [report], source []] (by simp [source]) hkey rfl hgone
  have hlistings : [source [report], source []].map (listing? "03") = [some report, none] := by
    decide +kernel
  rw [hlistings] at hretold
  obtain ⟨record, hrecord, hseen⟩ := hretold.2 report rfl
  exact ⟨key, record, hkey, hrecord, hseen⟩

end Procedure

end LightningRecords
