import Mkvs.Proofs.Frame

/-!
# The earliest and the last finalized version

`Finalize` and `Prune` are the only operations, `New` apart, that move the two version
bounds of the metadata, each to a version its checks have just compared with the bounds.
`Finalize(roots)` sets the last finalized version to the roots' version, which its checks
put above the last finalized version, and right after it when no restore is in progress;
the first `Finalize` also sets the earliest version to it (`Metadata.withLastFinalized`).
`Prune(V)` sets the earliest version to `V + 1`, for a `V` that its checks put at the
earliest version and below the last finalized one.

Along every run of calls from a freshly created database that does not reopen it, the
bounds therefore never decrease, the earliest version stays 0 until a version is
finalized, and then stays at or below the last finalized version (`versions_along_run`).
The calls may fail at any step: a setter writes the in-memory record before the step that
can fail, and the statement is about the in-memory record.
-/

namespace Mkvs.Badger

/-! ## The bounds -/

/-- The bounds the metadata keeps on its two versions. -/
structure VersionBounds (m : Metadata) : Prop where
  earliest_initial : m.lastFinalizedVersion = none → m.earliestVersion = 0
  earliest_le_last : ∀ l, m.lastFinalizedVersion = some l → m.earliestVersion ≤ l
  last_lt : ∀ l, m.lastFinalizedVersion = some l → l < 2 ^ 64

/-- Neither version decreased from `m` to `m'`. -/
def VersionsAdvance (m m' : Metadata) : Prop :=
  m.earliestVersion ≤ m'.earliestVersion ∧
    ∀ l, m.lastFinalizedVersion = some l → ∃ l', m'.lastFinalizedVersion = some l' ∧ l ≤ l'

/-- The versions that the checks of `Finalize` accept on the database `d`: above the last
finalized version, and right after it when no restore is in progress. -/
def FinalizeTarget (d : Db) (v : Nat) : Prop :=
  ∀ l, d.meta.lastFinalizedVersion = some l →
    l < v ∧ (d.multipartVersion = multipartVersionNone → v = l + 1)

/-- A version above the last finalized one is at or above the earliest. -/
theorem VersionBounds.earliest_le {m : Metadata} (hb : VersionBounds m) {v : Nat}
    (h : ∀ l, m.lastFinalizedVersion = some l → l < v) : m.earliestVersion ≤ v := by
  rcases hl : m.lastFinalizedVersion with _ | l
  · rw [hb.earliest_initial hl]; exact Nat.zero_le v
  · exact Nat.le_of_lt (Nat.lt_of_le_of_lt (hb.earliest_le_last l hl) (h l hl))

/-! ## The checks -/

theorem finalizeChecks_ok {roots : List Root} {w w' : World} {v : Nat}
    (h : (finalizeChecks roots).exec w = (.ok v, w')) :
    w' = w ∧ (∃ r ∈ roots, r.version = v) ∧ FinalizeTarget w.db v ∧
      ∀ r ∈ roots, r.version = v := by
  unfold finalizeChecks at h
  simp only [exec_bind, exec_getDb, pure_bind, throw_bind] at h
  repeat' split at h
  all_goals simp only [exec_throw, exec_pure, Prod.mk.injEq, Except.ok.injEq, reduceCtorEq,
    false_and] at h
  all_goals obtain ⟨rfl, rfl⟩ := h
  all_goals refine ⟨rfl, ⟨_, List.mem_of_mem_head? ‹_›, rfl⟩, fun l hl => ?_, fun r hr => ?_⟩
  · rename_i hlast hnf hle _
    rw [hlast, Option.some.injEq] at hl
    subst hl
    omega
  all_goals first
    | exact absurd hl (‹∀ l, _ = some l → False› l)
    | exact Decidable.of_not_not fun hne =>
        List.any_eq_false.1 (Bool.of_not_eq_true ‹_›) r hr (decide_eq_true hne)

theorem pruneChecks_ok {version : Nat} {w w' : World}
    (h : (pruneChecks version).exec w = (.ok (), w')) :
    w' = w ∧ w.db.readOnly = false ∧ w.db.multipartVersion = multipartVersionNone ∧
      version = w.db.meta.earliestVersion ∧
      ∃ l, w.db.meta.lastFinalizedVersion = some l ∧ version < l := by
  unfold pruneChecks at h
  simp only [exec_bind, exec_getDb, pure_bind, throw_bind] at h
  repeat' split at h
  all_goals simp only [exec_throw, exec_pure, Prod.mk.injEq, reduceCtorEq, false_and] at h
  obtain ⟨-, rfl⟩ := h
  rename_i hro hmp _ l hlast hlt hne heq
  exact ⟨rfl, Bool.not_eq_true _ ▸ hro, not_not.mp hmp, not_not.mp hne, l, hlast, by omega⟩

/-! ## Finalize -/

@[simp] theorem Metadata.withLastFinalized_earliest (m : Metadata) (v : Nat) :
    (m.withLastFinalized v).earliestVersion =
      if m.lastFinalizedVersion = none then v else m.earliestVersion := rfl

@[simp] theorem Metadata.withLastFinalized_last (m : Metadata) (v : Nat) :
    (m.withLastFinalized v).lastFinalizedVersion = some v := rfl

/-- Finalizing a version above the last finalized one leaves the earliest version at or below
it. -/
theorem VersionBounds.earliest_withLastFinalized_le {m : Metadata} (hb : VersionBounds m)
    {v : Nat} (h : ∀ l, m.lastFinalizedVersion = some l → l < v) :
    (m.withLastFinalized v).earliestVersion ≤ v := by
  rw [Metadata.withLastFinalized_earliest]
  split_ifs
  exacts [le_rfl, hb.earliest_le h]

/-- Both versions are kept, or are set as `Metadata.withLastFinalized v` sets them. -/
def Frame.lastTo (v : Nat) : Frame where
  rel w w' := Frame.versions.rel w w' ∨
    (w'.db.meta.earliestVersion = (w.db.meta.withLastFinalized v).earliestVersion ∧
      w'.db.meta.lastFinalizedVersion = some v)
  refl w := .inl (Frame.versions.refl w)
  trans h₁ h₂ := by
    rcases h₁ with h₁ | ⟨he₁, hl₁⟩ <;> rcases h₂ with h₂ | ⟨he₂, hl₂⟩
    · exact .inl (Frame.versions.trans h₁ h₂)
    · exact .inr ⟨by simp only [he₂, h₁.1, h₁.2, Metadata.withLastFinalized_earliest], hl₂⟩
    · exact .inr ⟨h₂.1.trans he₁, h₂.2.trans hl₁⟩
    · exact .inr ⟨by simp only [he₂, he₁, hl₁, Metadata.withLastFinalized_earliest, reduceCtorEq,
        if_false], hl₂⟩
  fault w n := .inl (Frame.versions.fault w n)

theorem setLastFinalizedVersion_exec (tx : Txn) (v : Nat) (w : World) :
    Frame.versions.rel { w with db := { w.db with meta := w.db.meta.withLastFinalized v } }
      ((setLastFinalizedVersion tx v).exec w).2 := by
  unfold setLastFinalizedVersion
  rw [exec_bind, exec_modifyDb]
  exact keeps_metaSave tx _

theorem keeps_finalizeFlush (sched : Sched) (roots : List Root) :
    Keeps Frame.versions (finalizeFlush sched roots) :=
  (keeps_finalizeChecks _).bind fun _ => (keeps_finalizeBatch _ _ _).bind fun _ =>
    (keeps_batchFlush Frame.versions_store _).bind fun _ => .pure' _

theorem finalizeFlush_ok {sched : Sched} {roots : List Root} {w w' : World} {v : Nat}
    {acc : FinalizeAcc} (h : (finalizeFlush sched roots).exec w = (.ok (v, acc), w')) :
    (∃ r ∈ roots, r.version = v) ∧ FinalizeTarget w.db v := by
  obtain ⟨v', w₀, hc, h⟩ := exec_bind_ok h
  obtain ⟨_, w₁, -, h⟩ := exec_bind_ok h
  obtain ⟨_, w₂, -, h⟩ := exec_bind_ok h
  simp only [exec_pure, Prod.mk.injEq, Except.ok.injEq] at h
  obtain ⟨⟨rfl, -⟩, -⟩ := h
  obtain ⟨-, hr, ht, -⟩ := finalizeChecks_ok hc
  exact ⟨hr, ht⟩

theorem keeps_finalizeCommit_rest (tx : Txn) : Keeps Frame.versions (do
    txnCommitAt tx tsMetadata
    if (← getDb).multipartVersion ≠ multipartVersionNone then cleanMultipartLocked false) :=
  (keeps_txnCommitAt Frame.versions_store _ _).bind fun _ => keeps_getDb.bind fun _ =>
    .ite (keeps_cleanMultipartLocked _) (.pure' _)

theorem keeps_finalizeCommit_save (v : Nat) (acc : FinalizeAcc) :
    Keeps Frame.versions (if acc.rootsChanged then RootsMetadata.save ⟨acc.roots, v⟩ acc.tx
      else pure acc.tx) :=
  .ite (keeps_save _ _) (.pure' _)

/-- After its flush, `Finalize` keeps both versions or sets them as
`Metadata.withLastFinalized v` does. -/
theorem keeps_finalizeCommit (v : Nat) (acc : FinalizeAcc) :
    Keeps (Frame.lastTo v) (finalizeCommit v acc) := by
  unfold finalizeCommit
  refine ((keeps_finalizeCommit_save v acc).mono fun _ _ => Or.inl).bind fun tx w₁ => ?_
  rw [exec_bind]
  have hset := setLastFinalizedVersion_exec tx v w₁
  rcases hs : (setLastFinalizedVersion tx v).exec w₁ with ⟨_ | tx', w₂⟩ <;> rw [hs] at hset
  · exact .inr hset
  · exact .inr ⟨(keeps_finalizeCommit_rest tx' w₂).1.trans hset.1,
      (keeps_finalizeCommit_rest tx' w₂).2.trans hset.2⟩

/-- The versions `Metadata.withLastFinalized` sets depend on the two versions only. -/
theorem withLastFinalized_earliest_of_versions {w w' : World} (h : Frame.versions.rel w w')
    (v : Nat) : (w'.db.meta.withLastFinalized v).earliestVersion =
      (w.db.meta.withLastFinalized v).earliestVersion := by
  simp only [Metadata.withLastFinalized_earliest, h.1, h.2]

/-- When it succeeds after its flush, `Finalize` has set both versions as
`Metadata.withLastFinalized v` sets them. -/
theorem finalizeCommit_ok {v : Nat} {acc : FinalizeAcc} {w w' : World}
    (h : (finalizeCommit v acc).exec w = (.ok (), w')) :
    w'.db.meta.earliestVersion = (w.db.meta.withLastFinalized v).earliestVersion ∧
      w'.db.meta.lastFinalizedVersion = some v := by
  unfold finalizeCommit at h
  obtain ⟨tx, w₁, hsave, h⟩ := exec_bind_ok h
  obtain ⟨tx', w₂, hset, h⟩ := exec_bind_ok h
  have h₁ := keeps_finalizeCommit_save v acc w
  rw [hsave] at h₁
  have h₂ := setLastFinalizedVersion_exec tx v w₁
  rw [hset] at h₂
  have h₃ := keeps_finalizeCommit_rest tx' w₂
  rw [h] at h₃
  exact ⟨h₃.1.trans (h₂.1.trans (withLastFinalized_earliest_of_versions h₁ v)), h₃.2.trans h₂.2⟩

/-- `Finalize` keeps both versions, or sets them as `Metadata.withLastFinalized v` does for a
version `v` its checks accepted; it has set them when it succeeds. -/
theorem finalize_versions (sched : Sched) (roots : List Root) (w : World) :
    (Frame.versions.rel w ((finalize sched roots).exec w).2 ∨
        ∃ v, (∃ x ∈ roots, x.version = v) ∧ FinalizeTarget w.db v ∧
          ((finalize sched roots).exec w).2.db.meta.earliestVersion =
            (w.db.meta.withLastFinalized v).earliestVersion ∧
          ((finalize sched roots).exec w).2.db.meta.lastFinalizedVersion = some v) ∧
      (((finalize sched roots).exec w).1 = .ok () → ∃ v, FinalizeTarget w.db v ∧
          ((finalize sched roots).exec w).2.db.meta.earliestVersion =
            (w.db.meta.withLastFinalized v).earliestVersion ∧
          ((finalize sched roots).exec w).2.db.meta.lastFinalizedVersion = some v) := by
  have hflush := keeps_finalizeFlush sched roots w
  unfold finalize
  rw [exec_bind]
  rcases hf : (finalizeFlush sched roots).exec w with ⟨e | ⟨v, acc⟩, w₁⟩ <;> rw [hf] at hflush
  · exact ⟨.inl hflush, fun h => nomatch h⟩
  · obtain ⟨hv, ht⟩ := finalizeFlush_ok hf
    have hw := withLastFinalized_earliest_of_versions hflush v
    refine ⟨(keeps_finalizeCommit v acc w₁).imp (Frame.versions.trans hflush)
      fun h => ⟨v, hv, ht, h.1.trans hw, h.2⟩, fun hok => ?_⟩
    obtain ⟨he, hl⟩ := finalizeCommit_ok (Prod.ext hok rfl)
    exact ⟨v, ht, he.trans hw, hl⟩

/-! ## Prune -/

theorem setEarliestVersion_exec (tx : Txn) (e : Nat) (w : World) :
    Frame.versions.rel { w with db := { w.db with meta := { w.db.meta with earliestVersion := e } } }
      ((setEarliestVersion tx e).exec w).2 := by
  unfold setEarliestVersion
  rw [exec_bind, exec_modifyDb]
  exact keeps_metaSave tx _

theorem keeps_pruneFlush (version : Nat) : Keeps Frame.versions (pruneFlush version) :=
  (keeps_pruneChecks _).bind fun _ => (keeps_pruneBatch _).bind fun _ =>
    (keeps_batchFlush Frame.versions_store _).bind fun _ => .pure' _

theorem pruneFlush_ok {version : Nat} {w w' : World} {tx : Txn}
    (h : (pruneFlush version).exec w = (.ok tx, w')) :
    w.db.readOnly = false ∧ w.db.multipartVersion = multipartVersionNone ∧
      version = w.db.meta.earliestVersion ∧
      ∃ l, w.db.meta.lastFinalizedVersion = some l ∧ version < l := by
  obtain ⟨_, w₀, hc, -⟩ := exec_bind_ok h
  exact (pruneChecks_ok hc).2

/-- After its flush, `Prune` keeps the last finalized version and has set the earliest
version to `e`, whether or not its metadata commit succeeds. -/
theorem pruneCommit_versions (tx : Txn) (e : Nat) (w : World) :
    ((setEarliestVersion tx e >>= fun tx => txnCommitAt tx tsMetadata).exec w).2.db.meta.lastFinalizedVersion =
        w.db.meta.lastFinalizedVersion ∧
      ((setEarliestVersion tx e >>= fun tx => txnCommitAt tx tsMetadata).exec w).2.db.meta.earliestVersion = e := by
  rw [exec_bind]
  have hset := setEarliestVersion_exec tx e w
  rcases hs : (setEarliestVersion tx e).exec w with ⟨_ | tx', w₁⟩ <;> rw [hs] at hset
  · exact ⟨hset.2, hset.1⟩
  · have hc := keeps_txnCommitAt Frame.versions_store tx' tsMetadata w₁
    exact ⟨hc.2.trans hset.2, hc.1.trans hset.1⟩

/-- `Prune(V)` keeps the last finalized version. It keeps the earliest version or sets it to
`V + 1` (in 64 bits) for a `V` its checks accepted, and it has set it when it succeeds. -/
theorem prune_versions (version : Nat) (w : World) :
    ((prune version).exec w).2.db.meta.lastFinalizedVersion = w.db.meta.lastFinalizedVersion ∧
      (((prune version).exec w).2.db.meta.earliestVersion = w.db.meta.earliestVersion ∨
        (version = w.db.meta.earliestVersion ∧
          (∃ l, w.db.meta.lastFinalizedVersion = some l ∧ version < l) ∧
          ((prune version).exec w).2.db.meta.earliestVersion = (version + 1) % 2 ^ 64)) ∧
      (((prune version).exec w).1 = .ok () → version = w.db.meta.earliestVersion ∧
        (∃ l, w.db.meta.lastFinalizedVersion = some l ∧ version < l) ∧
        ((prune version).exec w).2.db.meta.earliestVersion = (version + 1) % 2 ^ 64) := by
  have hflush := keeps_pruneFlush version w
  unfold prune
  rw [exec_bind]
  rcases hf : (pruneFlush version).exec w with ⟨e | tx, w₁⟩ <;> rw [hf] at hflush
  · exact ⟨hflush.2, .inl hflush.1, fun h => nomatch h⟩
  · obtain ⟨-, -, hv, hl⟩ := pruneFlush_ok hf
    obtain ⟨hlast, he⟩ := pruneCommit_versions tx ((version + 1) % 2 ^ 64) w₁
    exact ⟨hlast.trans hflush.2, .inr ⟨hv, hl, he⟩, fun _ => ⟨hv, hl, he⟩⟩

/-! ## One call, then a run -/

/-- The world a call other than `New` runs in. -/
theorem step_eq_run {s : Sys} {c : Call} (hc : ∀ cfg, c.action ≠ .reopen cfg) :
    (step s c).1 = (c.action.run.exec (s.world c.fault)).1 ∧
      (step s c).2.db = (c.action.run.exec (s.world c.fault)).2.db := by
  obtain ⟨a, f⟩ := c
  cases a <;> first | exact ⟨rfl, rfl⟩ | exact absurd rfl (hc _)

/-- A call whose operation keeps both versions keeps the bounds. -/
theorem versionBounds_of_keeps {m m' : Metadata} (hb : VersionBounds m)
    (he : m'.earliestVersion = m.earliestVersion)
    (hl : m'.lastFinalizedVersion = m.lastFinalizedVersion) :
    VersionBounds m' ∧ VersionsAdvance m m' :=
  ⟨⟨fun h => he.trans (hb.earliest_initial (hl ▸ h)),
    fun l h => he ▸ hb.earliest_le_last l (hl ▸ h), fun l h => hb.last_lt l (hl ▸ h)⟩,
    he.ge, fun l h => ⟨l, hl.trans h, le_rfl⟩⟩

/-- Setting the last finalized version to a 64-bit version above it, and the earliest
version with it when none was finalized, keeps the bounds. -/
theorem versionBounds_of_lastTo {m m' : Metadata} {v : Nat} (hb : VersionBounds m)
    (hv : v < 2 ^ 64) (ht : ∀ l, m.lastFinalizedVersion = some l → l < v)
    (he : m'.earliestVersion = (m.withLastFinalized v).earliestVersion)
    (hl : m'.lastFinalizedVersion = some v) :
    VersionBounds m' ∧ VersionsAdvance m m' := by
  have hadv : m.earliestVersion ≤ m'.earliestVersion := by
    rw [he, Metadata.withLastFinalized_earliest]
    split_ifs
    exacts [hb.earliest_le ht, le_rfl]
  refine ⟨⟨fun h => (nomatch hl.symm.trans h), fun l h => ?_, fun l h => ?_⟩, hadv,
    fun l h => ⟨v, hl, (ht l h).le⟩⟩
  all_goals obtain rfl : v = l := Option.some.inj (hl.symm.trans h)
  exacts [he ▸ hb.earliest_withLastFinalized_le ht, hv]

/-- Moving the earliest version from `v` to `v + 1` below the last finalized version keeps
the bounds. -/
theorem versionBounds_of_earliestTo {m m' : Metadata} {v l : Nat} (hb : VersionBounds m)
    (hv : v = m.earliestVersion) (hls : m.lastFinalizedVersion = some l) (hlt : v < l)
    (hl : m'.lastFinalizedVersion = m.lastFinalizedVersion)
    (he : m'.earliestVersion = (v + 1) % 2 ^ 64) :
    VersionBounds m' ∧ VersionsAdvance m m' := by
  have hmod : (v + 1) % 2 ^ 64 = v + 1 :=
    Nat.mod_eq_of_lt (by have := hb.last_lt l hls; omega)
  rw [hmod] at he
  refine ⟨⟨fun h => (nomatch (hl.symm.trans h).symm.trans hls), fun l' h => ?_,
    fun l' h => hb.last_lt l' (hl ▸ h)⟩, by omega, fun l' h => ⟨l', hl.trans h, le_rfl⟩⟩
  obtain rfl : l = l' := Option.some.inj (hls.symm.trans (hl.symm.trans h))
  omega

section Step

variable {s : Sys} {c : Call}

theorem step_versionBounds (hb : VersionBounds s.db.meta) (hwf : c.action.WellFormed)
    (hc : ∀ cfg, c.action ≠ .reopen cfg) :
    VersionBounds (step s c).2.db.meta ∧ VersionsAdvance s.db.meta (step s c).2.db.meta := by
  rw [(step_eq_run hc).2]
  obtain ⟨a, f⟩ := c
  have keeps {p : DbM Unit} (hp : Keeps Frame.versions p) :
      VersionBounds (p.exec (s.world f)).2.db.meta ∧
        VersionsAdvance s.db.meta (p.exec (s.world f)).2.db.meta :=
    versionBounds_of_keeps hb (hp _).1 (hp _).2
  cases a with
  | newBatch => exact keeps (keeps_versions_of_db (keeps_newBatch _ _ _ _))
  | putNode => exact keeps (keeps_versions_of_db (keeps_putNode _ _))
  | removeNodes => exact keeps (keeps_versions_of_db (keeps_removeNodes _ _))
  | putWriteLog => exact keeps (keeps_versions_of_db (keeps_putWriteLog _ _ _))
  | commit => exact keeps (keeps_commit _ _)
  | reset => exact keeps (keeps_versions_of_db (keeps_reset _))
  | startMultipartInsert => exact keeps (keeps_startMultipartInsert _)
  | abortMultipartInsert => exact keeps (keeps_cleanMultipartLocked _)
  | reopen cfg => exact absurd rfl (hc cfg)
  | finalize sched roots =>
    rcases (finalize_versions sched roots (s.world f)).1 with
      ⟨he, hl⟩ | ⟨v, ⟨x, hx, rfl⟩, ht, he, hl⟩
    · exact versionBounds_of_keeps hb he hl
    · exact versionBounds_of_lastTo hb (hwf x hx) (fun l h => (ht l h).1) he hl
  | prune version =>
    obtain ⟨hl, he, -⟩ := prune_versions version (s.world f)
    rcases he with he | ⟨hv, ⟨l, hls, hlt⟩, he⟩
    · exact versionBounds_of_keeps hb he hl
    · exact versionBounds_of_earliestTo hb hv hls hlt hl he

theorem step_prune_ok {version : Nat} (hb : VersionBounds s.db.meta)
    (ha : c.action = .prune version) (hok : (step s c).1 = .ok ()) :
    ∃ l, s.db.meta.lastFinalizedVersion = some l ∧ version < l ∧
      (step s c).2.db.meta.earliestVersion = version + 1 := by
  have hc : ∀ cfg, c.action ≠ .reopen cfg := fun _ h => by rw [ha] at h; cases h
  obtain ⟨h1, h2⟩ := step_eq_run hc
  rw [h1, ha] at hok
  obtain ⟨-, ⟨l, hls, hlt⟩, he⟩ := (prune_versions version (s.world c.fault)).2.2 hok
  refine ⟨l, hls, hlt, ?_⟩
  rw [h2, ha]
  exact he.trans (Nat.mod_eq_of_lt (by have := hb.last_lt l hls; omega))

theorem step_finalize_ok {sched : Sched} {roots : List Root} {l : Nat}
    (ha : c.action = .finalize sched roots) (hok : (step s c).1 = .ok ())
    (hmp : s.db.multipartVersion = multipartVersionNone)
    (hls : s.db.meta.lastFinalizedVersion = some l) :
    (step s c).2.db.meta.lastFinalizedVersion = some (l + 1) := by
  have hc : ∀ cfg, c.action ≠ .reopen cfg := fun _ h => by rw [ha] at h; cases h
  obtain ⟨h1, h2⟩ := step_eq_run hc
  rw [h1, ha] at hok
  obtain ⟨v, ht, -, hv⟩ := (finalize_versions sched roots (s.world c.fault)).2 hok
  rw [h2, ha]
  exact hv.trans (by rw [(ht l hls).2 hmp])

end Step

theorem fresh_versionBounds (cfg : Config) : VersionBounds (Sys.fresh cfg).db.meta :=
  ⟨fun _ => rfl, fun _ h => (nomatch h), fun _ h => (nomatch h)⟩

theorem run_versionBounds :
    ∀ (s : Sys) (cs : List Call), VersionBounds s.db.meta →
      (∀ x ∈ cs, x.action.WellFormed ∧ ∀ cfg, x.action ≠ .reopen cfg) →
      VersionBounds (run s cs).2.db.meta
  | _, [], hb, _ => hb
  | s, c :: cs, hb, hcs =>
    have hc := hcs c (List.mem_cons_self _ _)
    run_versionBounds (step s c).2 cs (step_versionBounds hb hc.1 hc.2).1
      fun x hx => hcs x (List.mem_cons_of_mem _ hx)

/-- Along every run from a freshly created database without `New`: the earliest and the
last finalized version never decrease; while no version is finalized the earliest version
is 0; the earliest version is at most the last finalized one, which is below `2 ^ 64`; a
successful `Prune(V)` had `V` below the last finalized version and sets the earliest
version to exactly `V + 1`; a successful `Finalize` with no restore in progress after a
version `l` was finalized sets the last finalized version to `l + 1`. -/
theorem versions_along_run (cfg : Config) (cs : List Call) (c : Call)
    (hcs : ∀ x ∈ cs ++ [c], x.action.WellFormed ∧ ∀ cfg', x.action ≠ .reopen cfg') :
    let s := (run (Sys.fresh cfg) cs).2
    let r := step s c
    VersionBounds r.2.db.meta ∧ VersionsAdvance s.db.meta r.2.db.meta ∧
      (∀ v, c.action = .prune v → r.1 = .ok () →
        ∃ l, s.db.meta.lastFinalizedVersion = some l ∧ v < l ∧
          r.2.db.meta.earliestVersion = v + 1) ∧
      (∀ sched roots l, c.action = .finalize sched roots → r.1 = .ok () →
        s.db.multipartVersion = multipartVersionNone →
        s.db.meta.lastFinalizedVersion = some l →
        r.2.db.meta.lastFinalizedVersion = some (l + 1)) := by
  intro s r
  have hb : VersionBounds s.db.meta := run_versionBounds _ cs (fresh_versionBounds cfg)
    fun x hx => hcs x (List.mem_append_left _ hx)
  have hc := hcs c (List.mem_append_right _ (List.mem_singleton_self c))
  exact ⟨(step_versionBounds hb hc.1 hc.2).1, (step_versionBounds hb hc.1 hc.2).2,
    fun _ ha hok => step_prune_ok hb ha hok, fun _ _ _ ha hok hmp hls => step_finalize_ok ha hok hmp hls⟩

/-- Scenario S5 cut to two versions: a run that commits and finalizes version 1, then
version 2, and then prunes version 1, which succeeds and leaves the earliest version at 2. -/
theorem versions_along_run_prune :
    let cs : List Call := [⟨.newBatch 0 ⟨7, 1, .state, 0⟩ 1 false, none⟩,
      ⟨.commit 0 ⟨7, 1, .state, 100⟩, none⟩, ⟨.finalize .inOrder [⟨7, 1, .state, 100⟩], none⟩,
      ⟨.newBatch 1 ⟨7, 1, .state, 100⟩ 2 false, none⟩,
      ⟨.commit 1 ⟨7, 2, .state, 200⟩, none⟩, ⟨.finalize .inOrder [⟨7, 2, .state, 200⟩], none⟩]
    let c : Call := ⟨.prune 1, none⟩
    let s := (run (Sys.fresh ⟨7, false, false⟩) cs).2
    let r := step s c
    (∀ x ∈ cs ++ [c], x.action.WellFormed ∧ ∀ cfg', x.action ≠ .reopen cfg') ∧
      r.1 = .ok () ∧ r.2.db.meta.earliestVersion = 2 ∧
      VersionBounds r.2.db.meta ∧ VersionsAdvance s.db.meta r.2.db.meta ∧
      (∀ v, c.action = .prune v → r.1 = .ok () →
        ∃ l, s.db.meta.lastFinalizedVersion = some l ∧ v < l ∧
          r.2.db.meta.earliestVersion = v + 1) ∧
      (∀ sched roots l, c.action = .finalize sched roots → r.1 = .ok () →
        s.db.multipartVersion = multipartVersionNone →
        s.db.meta.lastFinalizedVersion = some l →
        r.2.db.meta.lastFinalizedVersion = some (l + 1)) :=
  have hcs : ∀ x ∈ [⟨.newBatch 0 ⟨7, 1, .state, 0⟩ 1 false, none⟩,
      ⟨.commit 0 ⟨7, 1, .state, 100⟩, none⟩, ⟨.finalize .inOrder [⟨7, 1, .state, 100⟩], none⟩,
      ⟨.newBatch 1 ⟨7, 1, .state, 100⟩ 2 false, none⟩,
      ⟨.commit 1 ⟨7, 2, .state, 200⟩, none⟩, ⟨.finalize .inOrder [⟨7, 2, .state, 200⟩], none⟩] ++
      [(⟨.prune 1, none⟩ : Call)], x.action.WellFormed ∧ ∀ cfg', x.action ≠ .reopen cfg' := by
    simp [Action.WellFormed]
  ⟨hcs, by decide, by decide, versions_along_run _ _ _ hcs⟩

end Mkvs.Badger
