import ValProofs.Nfd.Machine
import ValProofs.Val.Hops
import ValProofs.Nfd.Nonces

/-!
Replies have a recipient. When VAL sends a Data on, it looks up the nonces it is
given in the IFNT, and takes for granted that it finds one: it divides by their
number and reads the first of them.

In a node the lookup succeeds as long as three things hold. The nonces of
pending Interests from the network are in the IFNT, different PIT entries list
different nonces, and VAL is not told about one Data twice. The first is an
invariant. The other two are not, so they are asked of the events: of an
Interest that its nonce is not in use in another PIT entry, and of a Data from
the network that no application waits for it besides others.
-/

namespace ValProofs

open Lib ValForwarder Pit.Table Pit.Entry Notice List Option

/-! ### Notices that find somebody -/

namespace Notice

/-- Some entry of the IFNT has one of the nonces. -/
def Answers (v : ValForwarder) (notice : Notice) : Prop :=
  ∃ entry ∈ v.ifnt, entry.nonce ∈ notice.nonceList

/-- Entries for other nonces stay. -/
theorem mem_ifnt_foldl_notify (g : Geometry) {notices : List Notice} {s : ValForwarder × Data}
    {entry : Ifnt.Entry} (hmem : entry ∈ s.1.ifnt)
    (hnot : ∀ notice ∈ notices, entry.nonce ∉ notice.nonceList) :
    entry ∈ (notices.foldl (notify g) s).1.ifnt := by
  induction notices generalizing s with
  | nil => exact hmem
  | cons notice notices ih =>
    obtain ⟨hnotice, hrest⟩ := forall_mem_cons.mp hnot
    apply ih _ hrest
    rw [ifnt_notify]
    split
    · exact hmem
    · exact (Ifnt.mem_removeEntriesByNonceList hnotice).mpr hmem

end Notice

/-- What `reveiceData` calls the strategy for has a recipient. -/
theorem ValForwarder.hasRecipient_reveiceData (g : Geometry) {v : ValForwarder} (inGeoface : ℕ)
    (data : Data) {nonceList : List Nonce} (isProducer : Bool)
    (hfound : ∃ entry ∈ v.ifnt, entry.nonce ∈ nonceList)
    (hcalls : ∀ call ∈ v.calls, HasRecipient call.call) :
    ∀ call ∈ (v.reveiceData g inGeoface data (some nonceList) isProducer).calls,
      HasRecipient call.call := by
  obtain ⟨entry, hmem, hnonce⟩ := hfound
  have hne := Ifnt.findMatchByNonceList_ne_nil hmem hnonce
  have hdel := delivered g v inGeoface data (some nonceList) isProducer
  generalize v.reveiceData g inGeoface data (some nonceList) isProducer = v' at hdel
  intro call hcall
  cases hdel with
  | control | cleaned => exact hcalls call hcall
  | relayed | originated =>
    rcases mem_append.mp hcall with hcall | hcall
    · exact hcalls call hcall
    · rw [mem_singleton.mp hcall]
      exact hne

/-- Notices with different nonces do not take each other's entries. -/
theorem Notice.hasRecipient_foldl_notify (g : Geometry) {notices : List Notice}
    {s : ValForwarder × Data}
    (hdisjoint : notices.Pairwise fun a b => a.nonceList.Disjoint b.nonceList)
    (hanswers : ∀ notice ∈ notices, notice.Answers s.1)
    (hcalls : ∀ call ∈ s.1.calls, HasRecipient call.call) :
    ∀ call ∈ (notices.foldl (notify g) s).1.calls, HasRecipient call.call := by
  induction notices generalizing s with
  | nil => exact hcalls
  | cons notice notices ih =>
    obtain ⟨hfirst, hrest⟩ := pairwise_cons.mp hdisjoint
    obtain ⟨hnotice, hanswers⟩ := forall_mem_cons.mp hanswers
    apply ih hrest
    · intro later hlater
      obtain ⟨entry, hmem, hnonce⟩ := hanswers later hlater
      have hother : ∀ first ∈ [notice], entry.nonce ∉ first.nonceList :=
        forall_mem_singleton.mpr fun h => hfirst later hlater h hnonce
      exact ⟨entry, mem_ifnt_foldl_notify g hmem hother, hnonce⟩
    · exact hasRecipient_reveiceData g notice.faceId (notice.mark s.2)
        notice.isProducer hnotice hcalls

namespace Node

variable {τ : Type}

/-! ### The notices of an entry -/

section Notices

variable {faces : FaceTable} {name : Name} {inFace : ℕ} {entry : Pit.Entry} {downstreams : List ℕ}

/-- After a geoface, only applications lead to notices. -/
theorem isClean_noticesFrom_true {notice : Notice}
    (h : notice ∈ noticesFrom faces name inFace true entry downstreams) :
    notice.isClean = true := by
  obtain ⟨_, -, sent, _, hsent, -, hnotice⟩ := exists_noticeFor h
  rw [noticeFor, hsent rfl, Bool.true_or, if_pos rfl] at hnotice
  split at hnotice
  · cases hnotice
  · split at hnotice
    · cases hnotice
      rfl
    · cases hnotice

/-- So without applications there is one notice at most. -/
theorem length_noticesFrom_le {sentToGeoFace : Bool}
    (h : ∀ notice ∈ noticesFrom faces name inFace sentToGeoFace entry downstreams,
      notice.isClean = false) :
    (noticesFrom faces name inFace sentToGeoFace entry downstreams).length ≤ 1 := by
  induction downstreams generalizing sentToGeoFace entry with
  | nil => exact Nat.zero_le 1
  | cons downstream downstreams ih =>
    rw [noticesFrom] at h ⊢
    cases hnotice : noticeFor faces name inFace sentToGeoFace entry.nonceList downstream with
    | none =>
      rw [hnotice] at h
      exact ih h
    | some notice =>
      rw [hnotice] at h
      obtain ⟨hfirst, hrest⟩ := forall_mem_cons.mp h
      have hgeo : faces.has Face.isGeoFace downstream = true := by
        have hclean := (noticeFor_eq_some hnotice).2.2.1
        rw [hfirst] at hclean
        simpa using hclean.symm
      rw [hgeo, Bool.or_true] at hrest ⊢
      have hnil : noticesFrom faces name inFace true (entry.deleteInRecord downstream)
          downstreams = [] := by
        refine eq_nil_iff_forall_not_mem.mpr fun later hlater => ?_
        have htrue := isClean_noticesFrom_true hlater
        rw [hrest later hlater] at htrue
        cases htrue
      rw [hnil]
      exact Nat.le_refl 1

/-- A notice for a downstream lists the nonce of the downstream's record. -/
theorem exists_lastNonce_noticesFrom {sentToGeoFace : Bool} (hwf : entry.WellFormed)
    (hnodup : downstreams.Nodup)
    (hrecords : ∀ faceId ∈ downstreams, ∃ r ∈ entry.inRecords, r.faceId = faceId) {notice : Notice}
    (h : notice ∈ noticesFrom faces name inFace sentToGeoFace entry downstreams) :
    ∃ r ∈ entry.inRecords, r.faceId ∈ downstreams ∧
      notice.isClean = !faces.has Face.isGeoFace r.faceId ∧
      r.lastNonce ∈ notice.nonceList := by
  induction downstreams generalizing sentToGeoFace entry with
  | nil => cases h
  | cons downstream downstreams ih =>
    obtain ⟨hnot, hnodup⟩ := nodup_cons.mp hnodup
    rcases mem_append.mp h with h | h
    · obtain ⟨hlist, -, hclean, -⟩ := noticeFor_eq_some (mem_toList.mp h)
      obtain ⟨r, hr, rfl⟩ := hrecords downstream mem_cons_self
      refine ⟨r, hr, mem_cons_self, hclean, ?_⟩
      rw [hlist]
      exact hwf.listed r hr
    · have hrecords' : ∀ faceId ∈ downstreams,
          ∃ r ∈ (entry.deleteInRecord downstream).inRecords, r.faceId = faceId := by
        intro faceId hface
        obtain ⟨r, hr, rfl⟩ := hrecords faceId (mem_cons_of_mem _ hface)
        exact ⟨r, hwf.mem_deleteInRecord.mpr ⟨hr, fun heq => hnot (heq ▸ hface)⟩, rfl⟩
      obtain ⟨r, hr, hface, hrest⟩ := ih (hwf.deleteInRecord downstream) hnodup hrecords' h
      exact ⟨r, (hwf.mem_deleteInRecord.mp hr).1, mem_cons_of_mem _ hface, hrest⟩

end Notices

/-! ### The invariant -/

/-- The entries of the PIT are in order and share no nonces. -/
structure PitOrdered (pit : Pit.Table) : Prop where
  wellFormed : ∀ id entry, pit.get id = some entry → entry.WellFormed
  disjoint : ∀ id id' entry entry', pit.get id = some entry → pit.get id' = some entry' →
    id ≠ id' → entry.nonceList.Disjoint entry'.nonceList

/-- The nonces of what geofaces wait for are in the IFNT, and so far every reply
has had a recipient. -/
structure Ready (node : Node τ) : Prop where
  ordered : PitOrdered node.pit
  known : ∀ id entry, node.pit.get id = some entry → ∀ r ∈ entry.inRecords,
    (node.val.faces.get r.faceId).isSome
  heard : ∀ id entry, node.pit.get id = some entry → ∀ r ∈ entry.inRecords,
    node.now < r.expiry → node.isGeoFace r.faceId = true →
    ∃ e ∈ node.val.ifnt, e.nonce = r.lastNonce
  replies : ∀ call ∈ node.val.calls, ValForwarder.HasRecipient call.call

variable {node : Node τ}

theorem Ready.facesKnown (h : Ready node) : node.FacesKnown :=
  fun entry hentry => h.known entry.id entry (get_eq_some.mpr ⟨hentry, rfl⟩)

variable {pit pit' : Pit.Table}

/-- Entries may lose nonces. -/
theorem PitOrdered.alters {f : Pit.Entry → Pit.Entry} {ids : List ℕ} (h : PitOrdered pit)
    (halters : Alters f ids pit pit')
    (hwf : ∀ id ∈ ids, ∀ entry, pit.get id = some entry → (f entry).WellFormed)
    (hsub : ∀ entry, (f entry).nonceList ⊆ entry.nonceList) : PitOrdered pit' := by
  have hlist : ∀ id entry', pit'.get id = some entry' → ∃ entry, pit.get id = some entry ∧
      entry'.nonceList ⊆ entry.nonceList := by
    intro id entry' hget
    obtain ⟨entry, hold, hsame⟩ := halters.exists_of_get hget
    refine ⟨entry, hold, ?_⟩
    rw [hsame.nonceList]
    split
    · exact hsub entry
    · exact Subset.refl _
  constructor
  · intro id entry' hget
    obtain ⟨entry, hold, hsame⟩ := halters.exists_of_get hget
    split at hsame
    · rename_i hid
      exact (hwf id hid entry hold).sameRecords hsame
    · exact (h.wellFormed id entry hold).sameRecords hsame
  · intro id id' entry entry' hget hget' hne nonce hnonce hnonce'
    obtain ⟨old, hold, hsubset⟩ := hlist id entry hget
    obtain ⟨old', hold', hsubset'⟩ := hlist id' entry' hget'
    exact h.disjoint id id' old old' hold hold' hne (hsubset hnonce) (hsubset' hnonce')

/-- VAL has received a packet, or faces have been added. -/
theorem Ready.extend (h : Ready node) {v : ValForwarder} (hext : v.faces.Extends node.val.faces)
    (hifnt : node.val.ifnt ⊆ v.ifnt) (hcalls : v.calls = node.val.calls) :
    Ready { node with val := v } where
  ordered := h.ordered
  known id entry hget r hr := by
    obtain ⟨face, hface⟩ := isSome_iff_exists.mp (h.known id entry hget r hr)
    exact isSome_iff_exists.mpr ⟨face, hext _ _ hface⟩
  heard id entry hget r hr hexpiry hgeo := by
    have hgeo' : node.isGeoFace r.faceId = true := by
      rw [isGeoFace, ← hext.has (h.known id entry hget r hr)]
      exact hgeo
    obtain ⟨e, he, hnonce⟩ := h.heard id entry hget r hr hexpiry hgeo'
    exact ⟨e, hifnt he, hnonce⟩
  replies := hcalls ▸ h.replies

/-! ### Data -/

/-- No application waits for the Data, or nobody else does. -/
def AtMostOneReply (P : Platform τ) (node : Node τ) (data : Data) : Prop :=
  node.appReplies P data = 0 ∨ node.appReplies P data + node.geoReplies P data ≤ 1

variable {P : Platform τ} {inFace : ℕ} {data : Data} {notice : Notice}

/-- A notice without the mark comes from a geoface that waits. -/
theorem PitOrdered.record_of_notice (h : PitOrdered node.pit)
    (hmem : notice ∈ node.notices P inFace data) (hclean : notice.isClean = false) :
    ∃ id ∈ node.findAllDataMatches P data, ∃ entry, node.pit.get id = some entry ∧
      ∃ r ∈ entry.inRecords, node.now < r.expiry ∧ node.isGeoFace r.faceId = true ∧
        r.lastNonce ∈ notice.nonceList := by
  obtain ⟨id, hid, entry, hget, hmem⟩ := mem_notices hmem
  have hperm := P.perm_setOrder (entry.pendingDownstreams node.now)
  have hpending : ∀ faceId ∈ P.setOrder (entry.pendingDownstreams node.now),
      ∃ r ∈ entry.inRecords, node.now < r.expiry ∧ r.faceId = faceId :=
    fun faceId hface => mem_pendingDownstreams.mp (hperm.mem_iff.mp hface)
  have hwf := h.wellFormed id entry hget
  obtain ⟨r, hr, hface, hgeo, hnonce⟩ := exists_lastNonce_noticesFrom hwf
    (hperm.nodup_iff.mpr (nodup_dedup _))
    (fun faceId hface => by
      obtain ⟨r, hr, -, heq⟩ := hpending faceId hface
      exact ⟨r, hr, heq⟩) hmem
  rw [hclean, eq_comm, Bool.not_eq_false'] at hgeo
  obtain ⟨r', hr', hexpiry, hface'⟩ := hpending r.faceId hface
  obtain rfl : r' = r := inj_on_of_nodup_map hwf.faces hr' hr hface'
  exact ⟨id, hid, entry, hget, r', hr, hexpiry, hgeo, hnonce⟩

/-- It finds the entry of that geoface. -/
theorem Ready.answers (h : Ready node) (hmem : notice ∈ node.notices P inFace data)
    (hclean : notice.isClean = false) : notice.Answers node.val := by
  obtain ⟨id, -, entry, hget, r, hr, hexpiry, hgeo, hnonce⟩ :=
    h.ordered.record_of_notice hmem hclean
  obtain ⟨e, he, heq⟩ := h.heard id entry hget r hr hexpiry hgeo
  exact ⟨e, he, heq ▸ hnonce⟩

/-- Without applications all notices have different nonces. -/
theorem Ready.pairwise_notices (h : Ready node)
    (hclean : ∀ notice ∈ node.notices P inFace data, notice.isClean = false) :
    (node.notices P inFace data).Pairwise fun a b => a.nonceList.Disjoint b.nonceList := by
  rw [notices, pairwise_flatMap]
  constructor
  · intro id hid
    have hshort : (node.noticesAt P.setOrder inFace data id).length ≤ 1 := by
      have hclean' : ∀ notice ∈ node.noticesAt P.setOrder inFace data id,
          notice.isClean = false :=
        fun notice hnotice => hclean notice (mem_flatMap.mpr ⟨id, hid, hnotice⟩)
      rw [noticesAt] at hclean' ⊢
      split
      · exact Nat.zero_le 1
      · rename_i entry hget
        rw [hget] at hclean'
        exact length_noticesFrom_le hclean'
    cases hnotices : node.noticesAt P.setOrder inFace data id with
    | nil => exact Pairwise.nil
    | cons notice rest =>
      rw [hnotices, length_cons] at hshort
      rw [eq_nil_of_length_eq_zero (l := rest) (by omega)]
      exact pairwise_singleton _ _
  · refine (nodup_findAllDataMatches P node data).imp_of_mem ?_
    intro id id' hid hid' hne a ha b hb
    have hget : ∀ id notice, notice ∈ node.noticesAt P.setOrder inFace data id →
        ∃ entry, node.pit.get id = some entry ∧ notice.nonceList ⊆ entry.nonceList := by
      intro id notice hnotice
      rw [noticesAt] at hnotice
      split at hnotice
      · cases hnotice
      · rename_i entry hget
        exact ⟨entry, hget, (nonceList_noticesFrom hnotice).subset⟩
    obtain ⟨entry, hget₁, hsub⟩ := hget id a ha
    obtain ⟨entry', hget₂, hsub'⟩ := hget id' b hb
    intro nonce hnonce hnonce'
    exact h.ordered.disjoint id id' entry entry' hget₁ hget₂ hne (hsub hnonce) (hsub' hnonce')

/-- The only application's notice finds the entry in the DFNT, and that is all. -/
theorem calls_notify_clean (g : Geometry) {s : ValForwarder × Data} {dfntEntry : Dfnt.Entry}
    (hfind : Dfnt.findMatch s.1.dfnt s.2.signature = some dfntEntry)
    (hclean : notice.isClean = true) (hrelay : notice.isProducer = false) :
    (notify g s notice).1.calls = s.1.calls := by
  have hmark := getCongestionMark_mark hclean s.2
  have hdel := delivered_notify g s notice
  generalize (notify g s notice).1 = v' at hdel ⊢
  cases hdel with
  | control | cleaned => rfl
  | relayed _ _ hmark' => exact absurd hmark hmark'
  | originated _ horigin =>
    rw [signature_mark, hfind, hrelay] at horigin
    rcases horigin with h | h <;> cases h

/-- When only one application waits, it is the only one to lead to a notice. -/
theorem Ready.notices_of_app (h : Ready node) (hin : node.isGeoFace inFace = true)
    (happ : node.appReplies P data = 1) (hgeo : node.geoReplies P data = 0) :
    ∃ notice, node.notices P inFace data = [notice] ∧ notice.isClean = true := by
  have hclean : ∀ notice ∈ node.notices P inFace data, notice.isClean = true := by
    intro notice hnotice
    by_contra hnot
    obtain ⟨id, hid, entry, hget, r, hr, hexpiry, hisGeo, -⟩ :=
      h.ordered.record_of_notice hnotice (Bool.eq_false_iff.mpr hnot)
    obtain ⟨hentry, rfl⟩ := get_eq_some.mp hget
    obtain ⟨found, hfound, hmatch, hfoundId⟩ := mem_findAllDataMatches.mp hid
    have hsame : found = entry := inj_on_of_nodup_map node.pit.nodup hfound hentry hfoundId
    have hwaits : (entry.pendingDownstreams node.now).any
        (node.val.faces.has Face.isGeoFace) = true :=
      any_eq_true.mpr
        ⟨r.faceId, mem_pendingDownstreams.mpr ⟨r, hr, hexpiry, rfl⟩, hisGeo⟩
    have hzero := List.sum_eq_zero_iff_forall_eq_nat.mp hgeo _
      (mem_map_of_mem (mem_filter.mpr ⟨hentry, hsame ▸ hmatch⟩))
    rw [if_pos hwaits] at hzero
    cases hzero
  have hcount := countP_isClean_notices hin (P := P) data
  rw [happ, countP_eq_length.mpr hclean] at hcount
  obtain ⟨notice, hnotices⟩ := length_eq_one_iff.mp hcount
  exact ⟨notice, hnotices, hclean notice (hnotices ▸ mem_singleton.mpr rfl)⟩

/-- All replies to a Data have a recipient. -/
theorem Ready.replies_notices (g : Geometry) (h : Ready node)
    (hone : node.isGeoFace inFace = true → AtMostOneReply P node data ∧
      ∃ entry, Dfnt.findMatch node.val.dfnt data.signature = some entry) :
    ∀ call ∈ ((node.notices P inFace data).foldl (notify g) (node.val, data)).1.calls,
      HasRecipient call.call := by
  by_cases hclean : ∀ notice ∈ node.notices P inFace data, notice.isClean = false
  · exact hasRecipient_foldl_notify g (h.pairwise_notices hclean)
      (fun notice hnotice => h.answers hnotice (hclean notice hnotice)) h.replies
  · simp only [not_forall, Bool.not_eq_false] at hclean
    obtain ⟨served, hserved, hisClean⟩ := hclean
    -- An application is told apart, so the Data comes through a geoface.
    obtain ⟨-, -, entry, -, hmem⟩ := mem_notices hserved
    have hin : node.isGeoFace inFace = true := isGeoFace_of_isClean hmem hisClean
    obtain ⟨hreply, dfntEntry, hfind⟩ := hone hin
    have hcount := countP_isClean_notices hin (P := P) data
    have hpos : 0 < (node.notices P inFace data).countP isClean :=
      countP_pos_iff.mpr ⟨served, hserved, hisClean⟩
    have happ : node.appReplies P data = 1 ∧ node.geoReplies P data = 0 := by
      rcases hreply with hreply | hreply
      · omega
      · omega
    obtain ⟨notice, hnotices, hnotice⟩ := h.notices_of_app hin happ.1 happ.2
    have hrelay : notice.isProducer = false := by
      have hproducer := isProducer_notices (hnotices ▸ mem_singleton.mpr rfl :
        notice ∈ node.notices P inFace data)
      rw [hproducer, hin]
      rfl
    rw [hnotices, foldl_cons, foldl_nil, calls_notify_clean g hfind hnotice hrelay]
    exact h.replies

variable {node' : Node τ}

/-- Records that are still there, under faces that have not changed. -/
theorem Ready.transfer (h : Ready node) (hordered : PitOrdered node'.pit)
    (hfaces : node'.val.faces = node.val.faces) (hnow : node.now ≤ node'.now)
    (hreplies : ∀ call ∈ node'.val.calls, HasRecipient call.call)
    (hrecords : ∀ id entry', node'.pit.get id = some entry' → ∀ r ∈ entry'.inRecords,
      ∃ entry, node.pit.get id = some entry ∧ r ∈ entry.inRecords ∧
        (node'.now < r.expiry → ∀ e ∈ node.val.ifnt, e.nonce = r.lastNonce →
          e ∈ node'.val.ifnt)) : Ready node' where
  ordered := hordered
  known id entry' hget r hr := by
    obtain ⟨entry, hget, hr, -⟩ := hrecords id entry' hget r hr
    rw [hfaces]
    exact h.known id entry hget r hr
  heard id entry' hget r hr hexpiry hgeo := by
    obtain ⟨entry, hget, hr, hkeep⟩ := hrecords id entry' hget r hr
    rw [isGeoFace, hfaces] at hgeo
    obtain ⟨e, he, hnonce⟩ := h.heard id entry hget r hr (by omega) hgeo
    exact ⟨e, hkeep hexpiry e he hnonce, hnonce⟩
  replies := hreplies

/-- Nothing but VAL's other fields has changed. -/
theorem Ready.of_same (h : Ready node) (hpit : node'.pit = node.pit) (hnow : node.now ≤ node'.now)
    (hfaces : node'.val.faces = node.val.faces) (hifnt : node'.val.ifnt = node.val.ifnt)
    (hreplies : ∀ call ∈ node'.val.calls, HasRecipient call.call) : Ready node' :=
  h.transfer (hpit ▸ h.ordered) hfaces hnow hreplies fun _ entry hget _ hr =>
    ⟨entry, hpit ▸ hget, hr, fun _ _ he _ => hifnt ▸ he⟩

theorem PitOrdered.serve (h : PitOrdered pit) {order : List ℕ → List ℕ} {now : ℕ} {ids : List ℕ}
    (halters : Alters (serve order now) ids pit pit') : PitOrdered pit' :=
  h.alters halters
    (fun id _ entry hget => (h.wellFormed id entry hget).foldl_deleteInRecord _)
    fun entry => (nonceList_foldl_deleteInRecord _ entry).subset

variable {g : Geometry}

/-- A Data. -/
theorem Ready.handled (h : Ready node) (hhandled : Handled P g node inFace data node')
    (hone : node.isGeoFace inFace = true → AtMostOneReply P node data ∧
      ∃ entry, Dfnt.findMatch node.val.dfnt data.signature = some entry) : Ready node' := by
  cases hhandled with
  | dropped _ hpit hnow hval =>
    exact h.of_same hpit hnow.ge (by rw [hval]) (by rw [hval]) (by rw [hval]; exact h.replies)
  | unsolicited _ isProducer hpit hnow hval =>
    rw [reveiceData_control _ _ _ (data.getCongestionMark_set _)] at hval
    exact h.of_same hpit hnow.ge (by rw [hval]) (by rw [hval]) (by rw [hval]; exact h.replies)
  | satisfied _ hpit hnow hval =>
    have hfaces := (faces_foldl_notify g (node.notices P inFace data)
      (node.val, data)).1
    refine h.transfer (h.ordered.serve hpit) (by rw [hval]; exact hfaces) hnow.ge
      (by rw [hval]; exact h.replies_notices g hone) ?_
    intro id entry' hget r hr
    obtain ⟨entry, hold, hsame⟩ := hpit.exists_of_get hget
    have hwf := h.ordered.wellFormed id entry hold
    rw [hsame.inRecords] at hr
    by_cases hid : id ∈ node.findAllDataMatches P data
    · -- What has not expired has been served.
      rw [if_pos hid, serve, hwf.mem_foldl_deleteInRecord, (P.perm_setOrder _).mem_iff] at hr
      refine ⟨entry, hold, hr.1, fun hexpiry => absurd ?_ hr.2⟩
      exact mem_pendingDownstreams.mpr ⟨r, hr.1, hnow ▸ hexpiry, rfl⟩
    · rw [if_neg hid] at hr
      refine ⟨entry, hold, hr, fun _ e he hnonce => ?_⟩
      rw [hval]
      apply mem_ifnt_foldl_notify g he
      intro notice hnotice hmem
      obtain ⟨id', hid', other, hother, hnotice⟩ := mem_notices hnotice
      refine h.ordered.disjoint id id' entry other hold hother (fun heq => hid (heq ▸ hid')) ?_
        ((nonceList_noticesFrom hnotice).subset hmem)
      rw [hnonce]
      exact hwf.listed r hr

/-! ### Interests -/

/-- Only the PIT entry that the Interest belongs to may list its nonce. -/
def NonceUnused (node : Node τ) (interest : Interest) : Prop :=
  ∀ entry ∈ node.pit.entries, interest.nonce ∈ entry.nonceList →
    node.pit.find interest = some entry

/-- If the Interest meets a PIT entry that nobody waits in any more, the entry
lists its nonce or the content store has nothing for it. -/
def NotLate (P : Platform τ) (node : Node τ) (interest : Interest) : Prop :=
  ∀ entry, node.pit.find interest = some entry → entry.inRecords = [] →
    interest.nonce ∈ entry.nonceList ∨
      ∀ hint nextHop, (P.contentStoreLookup node.store
        { interest with forwardingHint := hint, nextHopFaceId := nextHop }).2 = none

variable {interest : Interest} {entry : Pit.Entry}

/-- No entry but that of the Interest lists the nonce. -/
theorem NonceUnused.not_mem (h : node.NonceUnused interest) {id : ℕ}
    (hget : (node.pit.insert interest).1.get id = some entry)
    (hne : id ≠ (node.pit.insert interest).2.1.id) : interest.nonce ∉ entry.nonceList := by
  intro hmem
  rcases get_insert hget with hold | ⟨hnone, rfl⟩
  · have hfind := h entry (get_eq_some.mp hold).1 hmem
    rcases node.pit.insert_cases interest with ⟨found, hfound, heq⟩ | ⟨hnone, -⟩
    · rw [heq] at hne
      rw [hfound] at hfind
      obtain rfl := some.inj hfind
      exact hne (get_eq_some.mp hold).2.symm
    · rw [hnone] at hfind
      cases hfind
  · rcases node.pit.insert_cases interest with ⟨found, hfound, -⟩ | ⟨-, -, heq⟩
    · rw [hnone] at hfound
      cases hfound
    · rw [heq] at hne
      exact hne (get_eq_some.mp hget).2.symm

theorem PitOrdered.insert (h : PitOrdered node.pit) (hunused : node.NonceUnused interest) :
    PitOrdered (node.pit.insert interest).1 := by
  have hnew : ∀ id entry, node.pit.get id = some entry → node.pit.find interest = none →
      entry.nonceList.Disjoint (make node.pit.nextId interest).nonceList := by
    intro id entry hget hnone nonce hmem hnonce
    have hfind := hunused entry (get_eq_some.mp hget).1
      (mem_singleton.mp hnonce ▸ hmem)
    rw [hnone] at hfind
    cases hfind
  constructor
  · intro id entry hget
    rcases get_insert hget with hold | ⟨-, rfl⟩
    · exact h.wellFormed id entry hold
    · exact wellFormed_make _ _
  · intro id id' entry entry' hget hget' hne
    rcases get_insert hget with hold | ⟨hnone, rfl⟩ <;>
      rcases get_insert hget' with hold' | ⟨hnone', rfl⟩
    · exact h.disjoint id id' entry entry' hold hold' hne
    · exact hnew id entry hold hnone'
    · exact (hnew id' entry' hold' hnone).symm
    · exact absurd ((get_eq_some.mp hget).2.symm.trans
        (get_eq_some.mp hget').2) hne

/-- The nonce of a new record is in no other entry. -/
theorem PitOrdered.record (h : PitOrdered pit) (hget : pit.get entry.id = some entry) {now : ℕ}
    (halters : Alters (fun e => e.insertOrUpdateInRecord now inFace interest)
      [entry.id] pit pit')
    (hnew : ∀ r ∈ entry.inRecords, r.faceId ≠ inFace → r.lastNonce ≠ interest.nonce)
    (hunused : ∀ id other, pit.get id = some other → id ≠ entry.id →
      interest.nonce ∉ other.nonceList) : PitOrdered pit' := by
  have hsub : ∀ e : Pit.Entry, ∀ nonce ∈
      (e.insertOrUpdateInRecord now inFace interest).nonceList,
      nonce ∈ e.nonceList ∨ nonce = interest.nonce := by
    intro e nonce hnonce
    rw [insertOrUpdateInRecord] at hnonce
    dsimp only at hnonce
    split at hnonce
    · exact .inl hnonce
    · rcases mem_append.mp hnonce with hnonce | hnonce
      · exact .inl hnonce
      · exact .inr (mem_singleton.mp hnonce)
  -- Another entry has none of the nonces of this one.
  have hother : ∀ id other entry', pit'.get id = some other → id ≠ entry.id →
      pit'.get entry.id = some entry' → other.nonceList.Disjoint entry'.nonceList := by
    intro id other entry' hget₁ hne hget₂ nonce hnonce hnonce'
    obtain ⟨old, hold, hsame⟩ := halters.exists_of_get hget₁
    obtain ⟨old', hold', hsame'⟩ := halters.exists_of_get hget₂
    rw [if_neg (mem_singleton.not.mpr hne)] at hsame
    rw [if_pos mem_cons_self] at hsame'
    obtain rfl := some.inj (hold'.symm.trans hget)
    rw [hsame.nonceList] at hnonce
    rw [hsame'.nonceList] at hnonce'
    rcases hsub old' nonce hnonce' with hmem | rfl
    · exact h.disjoint id old'.id old old' hold hget hne hnonce hmem
    · exact hunused id old hold hne hnonce
  constructor
  · intro id entry' hget'
    obtain ⟨old, hold, hsame⟩ := halters.exists_of_get hget'
    split at hsame
    · rename_i hid
      obtain rfl := mem_singleton.mp hid
      obtain rfl := some.inj (hold.symm.trans hget)
      exact ((h.wellFormed _ _ hold).insertOrUpdateInRecord now hnew).sameRecords hsame
    · exact (h.wellFormed id old hold).sameRecords hsame
  · intro id id' e e' he he' hne
    by_cases hid : id = entry.id
    · subst hid
      exact (hother id' e' e he' (Ne.symm hne) he).symm
    · by_cases hid' : id' = entry.id
      · subst hid'
        exact hother id e e' he hid he'
      · obtain ⟨old, hold, hsame⟩ := halters.exists_of_get he
        obtain ⟨old', hold', hsame'⟩ := halters.exists_of_get he'
        rw [if_neg (mem_singleton.not.mpr hid)] at hsame
        rw [if_neg (mem_singleton.not.mpr hid')] at hsame'
        rw [hsame.nonceList, hsame'.nonceList]
        exact h.disjoint id id' old old' hold hold' hne

/-- The entry of an Interest that the content store answers lists the nonce. -/
theorem NotLate.listed (h : node.NotLate P interest) {hint : List Name}
    (hstore : (P.contentStoreLookup node.store
      { interest with forwardingHint := hint }).2 = some data)
    (hempty : (node.pit.insert { interest with forwardingHint := hint }).2.1.inRecords = []) :
    interest.nonce ∈
      (node.pit.insert { interest with forwardingHint := hint }).2.1.nonceList := by
  rcases node.pit.insert_cases { interest with forwardingHint := hint } with
    ⟨entry, hfind, heq⟩ | ⟨-, -, heq⟩
  · rw [heq] at hempty ⊢
    rcases h entry hfind hempty with hmem | hnone
    · exact hmem
    · rw [hnone hint interest.nextHopFaceId] at hstore
      cases hstore
  · rw [heq]
    exact mem_singleton.mpr rfl

/-- An Interest that the content store answers. -/
theorem Ready.answered (h : Ready node) (hunused : node.NonceUnused interest)
    (hempty : (node.pit.insert interest).2.1.inRecords = [])
    (hpit : Alters (fun e => e) [(node.pit.insert interest).2.1.id]
      (node.pit.insert interest).1 node'.pit) (hnow : node'.now = node.now)
    (hval : node'.val = node.val ∨ node.isGeoFace inFace = true ∧ ∃ geoface,
      node'.val = node.val.reveiceData g geoface data
        (some (node.pit.insert interest).2.1.nonceList) false)
    (hgeo : node.isGeoFace inFace = true →
      interest.nonce ∈ (node.pit.insert interest).2.1.nonceList ∧
      ∃ e ∈ node.val.ifnt, e.nonce = interest.nonce) : Ready node' := by
  have hins := h.ordered.insert hunused
  have hget := get_eq_some.mpr ⟨node.pit.mem_insert interest, rfl⟩
  have hordered := hins.alters hpit (fun id _ entry => hins.wellFormed id entry)
    fun _ => Subset.refl _
  -- Records are in entries that were there, and not in that of the Interest.
  have hrecords : ∀ id entry', node'.pit.get id = some entry' → ∀ r ∈ entry'.inRecords,
      ∃ entry, node.pit.get id = some entry ∧ r ∈ entry.inRecords ∧
        r.lastNonce ∉ (node.pit.insert interest).2.1.nonceList := by
    intro id entry' hget' r hr
    obtain ⟨entry, hold, hsame⟩ := hpit.exists_of_get hget'
    rw [ite_self] at hsame
    rw [hsame.inRecords] at hr
    have hne : id ≠ (node.pit.insert interest).2.1.id := by
      rintro rfl
      obtain rfl := some.inj (hold.symm.trans hget)
      rw [hempty] at hr
      cases hr
    rcases get_insert hold with hnode | ⟨-, rfl⟩
    · exact ⟨entry, hnode, hr, hins.disjoint id _ entry _ hold hget hne
        ((h.ordered.wellFormed id entry hnode).listed r hr)⟩
    · cases hr
  rcases hval with hval | ⟨hin, geoface, hval⟩
  · refine h.transfer hordered (by rw [hval]) hnow.ge (by rw [hval]; exact h.replies) ?_
    intro id entry' hget' r hr
    obtain ⟨entry, hnode, hr, -⟩ := hrecords id entry' hget' r hr
    exact ⟨entry, hnode, hr, fun _ e he _ => by rw [hval]; exact he⟩
  · obtain ⟨hlisted, e, he, hnonce⟩ := hgeo hin
    refine h.transfer hordered (by rw [hval, faces_reveiceData]) hnow.ge ?_ ?_
    · rw [hval]
      exact hasRecipient_reveiceData g geoface data false
        ⟨e, he, hnonce ▸ hlisted⟩ h.replies
    · intro id entry' hget' r hr
      obtain ⟨entry, hnode, hr, hnot⟩ := hrecords id entry' hget' r hr
      refine ⟨entry, hnode, hr, fun _ e he heq => ?_⟩
      rw [hval, ifnt_reveiceData]
      split
      · exact he
      · exact (Ifnt.mem_removeEntriesByNonceList (heq ▸ hnot)).mpr he

/-- An Interest that gets an in-record. -/
theorem Ready.recorded (h : Ready node) (hunused : node.NonceUnused interest)
    (hdup : node.hasDuplicateNonce (node.pit.insert interest).2.1 inFace interest = false)
    (hpit : Alters (fun e => e.insertOrUpdateInRecord node.now inFace interest)
      [(node.pit.insert interest).2.1.id] (node.pit.insert interest).1 node'.pit)
    (hnow : node'.now = node.now) (hfaces : node'.val.faces = node.val.faces)
    (hifnt : node'.val.ifnt = node.val.ifnt)
    (hreplies : ∀ call ∈ node'.val.calls, HasRecipient call.call)
    (hface : (node.val.faces.get inFace).isSome)
    (hgeo : node.isGeoFace inFace = true → ∃ e ∈ node.val.ifnt, e.nonce = interest.nonce) :
    Ready node' := by
  have hins := h.ordered.insert hunused
  have hget := get_eq_some.mpr ⟨node.pit.mem_insert interest, rfl⟩
  -- A record is the new one or was there.
  have hrecords : ∀ id entry', node'.pit.get id = some entry' → ∀ r ∈ entry'.inRecords,
      (r.faceId = inFace ∧ r.lastNonce = interest.nonce) ∨
        ∃ entry, node.pit.get id = some entry ∧ r ∈ entry.inRecords := by
    intro id entry' hget' r hr
    obtain ⟨entry, hold, hsame⟩ := hpit.exists_of_get hget'
    rw [hsame.inRecords] at hr
    have hcases : (r.faceId = inFace ∧ r.lastNonce = interest.nonce) ∨ r ∈ entry.inRecords := by
      split at hr
      · rcases (mem_upsert (hins.wellFormed id entry hold).faces).mp hr with rfl | ⟨hr, -⟩
        · exact .inl ⟨rfl, rfl⟩
        · exact .inr hr
      · exact .inr hr
    rcases hcases with hnew | hr
    · exact .inl hnew
    · rcases get_insert hold with hnode | ⟨-, rfl⟩
      · exact .inr ⟨entry, hnode, hr⟩
      · cases hr
  constructor
  · exact hins.record hget hpit
      ((hins.wellFormed _ _ hget).lastNonce_ne hdup)
      fun id other hother hne => hunused.not_mem hother hne
  · intro id entry' hget' r hr
    rw [hfaces]
    rcases hrecords id entry' hget' r hr with ⟨hnew, -⟩ | ⟨entry, hnode, hr⟩
    · rw [hnew]
      exact hface
    · exact h.known id entry hnode r hr
  · intro id entry' hget' r hr hexpiry hisGeo
    rw [isGeoFace, hfaces] at hisGeo
    rw [hifnt]
    rcases hrecords id entry' hget' r hr with ⟨hnew, hnonce⟩ | ⟨entry, hnode, hr⟩
    · rw [hnonce]
      exact hgeo (hnew ▸ hisGeo)
    · exact h.heard id entry hnode r hr (hnow ▸ hexpiry) hisGeo
  · exact hreplies

theorem hasRecipient_reveiceInterest (g : Geometry) {v : ValForwarder} (inGeoface : ℕ)
    (interest : Interest) (h : ∀ call ∈ v.calls, HasRecipient call.call) :
    ∀ call ∈ (v.reveiceInterest g inGeoface interest).calls,
      HasRecipient call.call := by
  intro call hcall
  rw [reveiceInterest_eq] at hcall
  rcases mem_append.mp hcall with hcall | hcall
  · exact h call hcall
  · rw [mem_singleton.mp hcall]
    cases Ifnt.findMatchByNonce v.ifnt interest.nonce with
    | none | some entry => trivial

/-- An Interest. -/
theorem Ready.asked (h : Ready node) (hasked : Asked P g node inFace interest node')
    (hface : (node.val.faces.get inFace).isSome) (hunused : node.NonceUnused interest)
    (hgeo : node.isGeoFace inFace = true → node.NotLate P interest ∧
      ∃ e ∈ node.val.ifnt, e.nonce = interest.nonce) : Ready node' := by
  cases hasked with
  | ignored hpit hnow hval =>
    exact h.of_same hpit hnow.ge (by rw [hval]) (by rw [hval]) (by rw [hval]; exact h.replies)
  | hit hint data hstore hempty hpit hnow hval =>
    have hunused' : node.NonceUnused { interest with forwardingHint := hint } := hunused
    exact h.answered hunused' hempty hpit hnow hval fun hin =>
      ⟨(hgeo hin).1.listed hstore hempty, (hgeo hin).2⟩
  | missed hint hdup hpit hnow hval =>
    have hunused' : node.NonceUnused { interest with forwardingHint := hint } := hunused
    rcases hval with hval | ⟨geoface, i, hval⟩
    · exact h.recorded hunused' hdup hpit hnow (by rw [hval]) (by rw [hval])
        (by rw [hval]; exact h.replies) hface fun hin => (hgeo hin).2
    · have hframe := reveiceInterest_eq g node.val geoface i
      exact h.recorded hunused' hdup hpit hnow (by rw [hval, hframe]; rfl)
        (by rw [hval, hframe]; rfl)
        (by rw [hval]; exact hasRecipient_reveiceInterest g geoface i h.replies) hface
        fun hin => (hgeo hin).2

/-! ### Runs -/

/-- What is asked of an event. -/
def Careful (P : Platform τ) (node : Node τ) : Event → Prop
  | .receive _ valP =>
      match valP.payload with
      | .interest interest => node.NonceUnused interest ∧ node.NotLate P interest
      | .data data => node.AtMostOneReply P data
      | .notSet => True
  | .incomingInterest _ interest => node.NonceUnused interest
  | _ => True

/-- Entries may go. -/
theorem PitOrdered.of_get (h : PitOrdered pit)
    (hget : ∀ id entry, pit'.get id = some entry → pit.get id = some entry) : PitOrdered pit' where
  wellFormed id entry hentry := h.wellFormed id entry (hget id entry hentry)
  disjoint id id' entry entry' hentry hentry' :=
    h.disjoint id id' entry entry' (hget id entry hentry) (hget id' entry' hentry')

theorem Ready.untouched (h : Ready node) {id : ℕ} (huntouched : Untouched id node node') :
    Ready node' := by
  obtain ⟨hval, hnow, hpit⟩ := huntouched
  refine h.transfer (h.ordered.alters hpit (fun id _ entry => h.ordered.wellFormed id entry)
    fun _ => Subset.refl _) (by rw [hval]) hnow.ge (by rw [hval]; exact h.replies) ?_
  intro id entry' hget r hr
  obtain ⟨entry, hold, hsame⟩ := hpit.exists_of_get hget
  rw [ite_self] at hsame
  exact ⟨entry, hold, hsame.inRecords ▸ hr, fun _ e he _ => hval ▸ he⟩

/-- A packet from the network. -/
theorem Ready.receive (h : Ready node) {face : ℕ} {valP : ValPacket}
    (hcareful : node.Careful P (.receive face valP)) :
    Ready (node.onReceivedValPacket P g face valP) := by
  obtain ⟨hext, hifnt⟩ := onReceivedValPacket_grows node.val face valP
  have hready := h.extend hext hifnt
    (calls_onReceivedValPacket node.val face valP)
  rw [onReceivedValPacket]
  cases hrec : node.val.onReceivedValPacket face valP with
  | mk v packet =>
    rw [hrec] at hready hext
    cases packet with
    | none => exact hready
    | some packet =>
      cases packet with
      | interest geoface interest =>
        obtain ⟨hgeo, ⟨i, nextHop, hpay, rfl⟩, hheard⟩ := toNfd_interest hrec
        simp only [Careful, hpay] at hcareful
        obtain ⟨hunused, hlate⟩ := hcareful
        obtain ⟨f, hf, -⟩ := hgeo
        exact hready.asked (Node.asked P g _ geoface _)
          (isSome_iff_exists.mpr ⟨f, hf⟩) hunused fun _ => ⟨hlate, hheard⟩
      | data geoface data =>
        simp only [Careful, (toNfd_data hrec).2.1] at hcareful
        have hfind : Dfnt.findMatch v.dfnt data.signature =
            some (Dfnt.Entry.make valP.valHeader data face) := by
          simp [toNfd_dfnt hrec, Dfnt.findMatch, Dfnt.Entry.make]
        refine hready.handled (Node.handled P g _ geoface data) fun _ => ⟨?_, _, hfind⟩
        obtain ⟨happ, hgeos⟩ := h.facesKnown.replies hext (P := P) data
        rw [AtMostOneReply, happ, hgeos]
        exact hcareful

theorem Ready.next (h : Ready node) {e : Event} (hguard : node.guard e)
    (hcareful : node.Careful P e) : Ready (node.next P g e) := by
  cases e with
  | receive face valP => exact h.receive hcareful
  | incomingInterest face interest =>
    have hown := OwnFace.isGeoFace hguard
    obtain ⟨f, hf, -⟩ := hguard
    refine h.asked (Node.asked P g node face interest) (isSome_iff_exists.mpr ⟨f, hf⟩)
      hcareful fun hgeo => ?_
    exact absurd hgeo (Bool.eq_false_iff.mp hown)
  | incomingData face data =>
    refine h.handled (Node.handled P g node face data) fun hgeo => ?_
    exact absurd hgeo (Bool.eq_false_iff.mp (OwnFace.isGeoFace hguard))
  | incomingNack face interest =>
    obtain ⟨id, huntouched⟩ := untouched_onIncomingNack node face interest
    exact h.untouched huntouched
  | fire id => exact h.of_same rfl (Nat.le_refl _) rfl rfl h.replies
  | interestFinalize id =>
    obtain ⟨hval, hnow, hget⟩ := onInterestFinalize_spec P node id
    refine h.transfer (h.ordered.of_get hget) (congrArg faces hval) hnow.ge ?_
      fun id' entry hentry r hr => ⟨entry, hget id' entry hentry, hr, fun _ e he _ => ?_⟩
    · show ∀ call ∈ (node.onInterestFinalize P id).val.calls, _
      rw [hval]
      exact h.replies
    · show e ∈ (node.onInterestFinalize P id).val.ifnt
      rw [hval]
      exact he
  | elapse duration => exact h.of_same rfl (Nat.le_add_right _ _) rfl rfl h.replies
  | addFace face =>
    exact h.extend (FaceTable.extends_add _ _) (Subset.refl _) rfl
  | addRoute name faceId cost
  | move mobility => exact h.of_same rfl (Nat.le_refl _) rfl rfl h.replies

theorem Init.ready (h : Init node) : Ready node := by
  obtain ⟨faces, mobility, store, face, -, -, rfl⟩ := h
  exact {
    ordered := {
      wellFormed := fun _ _ h => nomatch h
      disjoint := fun _ _ _ _ h => nomatch h }
    known := fun _ _ h => nomatch h
    heard := fun _ _ h => nomatch h
    replies := fun _ h => nomatch h }

/-- In every run in which no Interest uses a nonce that another PIT entry lists, no
Interest from the network is answered from the content store through a PIT entry
that has been left with other nonces, and no Data from the network is awaited by
an application and by somebody else, every reply that VAL constructs has a
recipient. -/
theorem replies_have_recipient (P : Platform τ) (g : Geometry) (node : Node τ)
    (h : ((system P g).restrict (Careful P)).Reachable node) :
    ∀ call ∈ node.val.calls, ValForwarder.HasRecipient call.call := by
  have hready : Ready node := by
    refine h.invariant (I := Ready) (fun _ => Init.ready) ?_
    rintro node e hready ⟨hguard, hcareful⟩
    exact hready.next hguard hcareful
  exact hready.replies

/-- A relay: it hears the Interest of area `A2` and then the answer. -/
def servedRelay : Node Unit :=
  [.receive 257 heardInterest, .receive 257 heardData].foldl
    (next samplePlatform ValForwarder.flatGeometry) freshNode

theorem servedRelay_reachable :
    ((system samplePlatform flatGeometry).restrict
      (Careful samplePlatform)).Reachable servedRelay := by
  have hstart : ((system samplePlatform flatGeometry).restrict
      (Careful samplePlatform)).Reachable freshNode :=
    .of_init ⟨_, _, (), netFace, rfl, rfl, rfl⟩
  refine hstart.foldl (.cons ⟨?_, ?_⟩ (.cons ⟨?_, ?_⟩ (.nil _)))
  · exact mem_singleton.mpr rfl
  · exact And.intro (fun _ h => nomatch h) fun _ h => nomatch h
  · exact mem_singleton.mpr rfl
  · exact Or.inl (by decide)

theorem replies_have_recipient_relay :
    (∃ call ∈ servedRelay.val.calls, ∃ dfntEntry ifntEntries data,
        call.call = .dfntHit dfntEntry ifntEntries data) ∧
      ∀ call ∈ servedRelay.val.calls, ValForwarder.HasRecipient call.call := by
  refine ⟨⟨_, List.mem_cons_of_mem _ (List.mem_singleton.mpr rfl), _, _, _, rfl⟩, ?_⟩
  exact replies_have_recipient samplePlatform ValForwarder.flatGeometry servedRelay
    servedRelay_reachable

/-- The application is served first, and with it goes what VAL knows of the geoface. -/
theorem consumer_reply_has_no_recipient :
    ¬ ∀ (P : Platform Unit) (g : Geometry) (node : Node Unit),
        (system P g).Reachable node →
        ∀ call ∈ node.val.calls, ValForwarder.HasRecipient call.call := by
  intro hall
  have hreach : (system samplePlatform ValForwarder.flatGeometry).Reachable
      (consumingRelay.next samplePlatform ValForwarder.flatGeometry (.receive 257 heardData)) :=
    consumingRelay_reachable.next (M := system samplePlatform ValForwarder.flatGeometry)
      (e := .receive 257 heardData) (List.mem_singleton.mpr rfl)
  have hempty : ((consumingRelay.next samplePlatform ValForwarder.flatGeometry
      (.receive 257 heardData)).val.calls.any fun call =>
        call.call == .dfntMiss (ValForwarder.sampleData.setCongestionMark 500) [] false) =
      true := by decide
  obtain ⟨call, hcall, hmiss⟩ := List.any_eq_true.mp hempty
  have hrecipient := hall _ _ _ hreach call hcall
  rw [beq_iff_eq.mp hmiss] at hrecipient
  exact hrecipient rfl

end Node

end ValProofs
