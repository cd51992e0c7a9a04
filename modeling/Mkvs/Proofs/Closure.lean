import Mathlib.Data.Finset.Card
import Mathlib.Logic.Relation
import Mkvs.Badger.Finalize

/-!
# The closure loop of `Finalize`

A pass of the closure loop finalizes a root of the roots map when one of its derived roots
is finalized. Whatever order each pass takes the roots in, and whatever the shape of the
map, cycles included, the loop as the code writes it (`ClosureRun`) stops after at most one
pass more than the map has roots, and it stops with the seeds together with every root of
the map from which a path of derived links reaches a seed. The fuel-bounded `closureLoop`
that `Finalize` computes with ends where that run ends
(`closure_loop_finalizes_ancestors`).

Each changing pass finalizes a root of the map not finalized before, so the number of
unfinalized roots of the map bounds the passes; a pass that changes nothing leaves a set
closed under the derived links, and every root a pass adds has a finalized derived root.
-/

namespace Mkvs.Badger

variable {roots : List (TypedHash × List TypedHash)}

/-- A derived link of a roots map: `c` is among the derived roots of `r`. -/
def DerivedLink (roots : List (TypedHash × List TypedHash)) (r c : TypedHash) : Prop :=
  c ∈ (roots.lookup r).getD []

/-- A root with a derived link is a key of the map. -/
theorem mem_keys_of_derivedLink {r c : TypedHash} (h : DerivedLink roots r c) :
    r ∈ roots.map (·.1) := by
  induction roots with
  | nil => simp [DerivedLink] at h
  | cons e es ih =>
    obtain ⟨k, d⟩ := e
    by_cases he : r = k
    · exact List.mem_cons.mpr (.inl he)
    · have hne : (r == k) = false := by simpa using he
      rw [DerivedLink, List.lookup_cons, hne] at h
      exact List.mem_cons_of_mem _ (ih h)

/-! ## One pass -/

/-- One round of a pass, for the root `r`: it is finalized when it is not yet and one of
its derived roots is. -/
def closeRoot (roots : List (TypedHash × List TypedHash)) (acc : List TypedHash × Bool)
    (r : TypedHash) : List TypedHash × Bool :=
  if r ∉ acc.1 ∧ ((roots.lookup r).getD []).any (· ∈ acc.1) then (r :: acc.1, true) else acc

/-- The inner loop over the derived roots of `r` finalizes `r` at the first finalized one,
and then nothing more. -/
theorem foldl_closureStep (r : TypedHash) :
    ∀ (d : List TypedHash) (acc : List TypedHash × Bool),
      d.foldl (closureStep r) acc =
        if r ∉ acc.1 ∧ d.any (· ∈ acc.1) then (r :: acc.1, true) else acc
  | [], acc => by simp
  | c :: d, acc => by
    rw [List.foldl_cons, foldl_closureStep r d]
    by_cases hr : r ∈ acc.1
    · simp [closureStep, hr]
    · by_cases hc : c ∈ acc.1 <;> simp [closureStep, hr, hc]

theorem closurePass_eq (keys F : List TypedHash) :
    closurePass roots keys F = keys.foldl (closeRoot roots) (F, false) := by
  unfold closurePass
  congr 1
  funext acc r
  dsimp only
  split
  · rename_i hd
    simp [closeRoot, List.isEmpty_iff.mp hd]
  · rw [foldl_closureStep]
    rfl

/-- A round either changes nothing or finalizes its root. -/
theorem closeRoot_eq_or_changed (roots : List (TypedHash × List TypedHash))
    (acc : List TypedHash × Bool) (r : TypedHash) :
    closeRoot roots acc r = acc ∨ (r ∉ acc.1 ∧ closeRoot roots acc r = (r :: acc.1, true)) := by
  unfold closeRoot
  split
  · exact .inr ⟨‹_ ∧ _›.1, rfl⟩
  · exact .inl rfl

theorem closeRoot_mono {acc : List TypedHash × Bool} {x : TypedHash} (r : TypedHash)
    (hx : x ∈ acc.1) : x ∈ (closeRoot roots acc r).1 := by
  rcases closeRoot_eq_or_changed roots acc r with hr | ⟨-, hr⟩ <;> rw [hr]
  exacts [hx, List.mem_cons_of_mem _ hx]

/-- A pass never unfinalizes a root. -/
theorem foldl_closeRoot_mono {x : TypedHash} :
    ∀ (keys : List TypedHash) {acc : List TypedHash × Bool}, x ∈ acc.1 →
      x ∈ (keys.foldl (closeRoot roots) acc).1
  | [], _, hx => hx
  | r :: keys, _, hx => foldl_closeRoot_mono keys (closeRoot_mono r hx)

theorem foldl_closeRoot_changed :
    ∀ (keys : List TypedHash) (acc : List TypedHash × Bool), acc.2 = true →
      (keys.foldl (closeRoot roots) acc).2 = true
  | [], _, h => h
  | r :: keys, acc, h => foldl_closeRoot_changed keys _ (by
    rcases closeRoot_eq_or_changed roots acc r with hr | ⟨-, hr⟩ <;> rw [hr]
    exact h)

/-- A pass that reports no change changed nothing. -/
theorem foldl_closeRoot_unchanged :
    ∀ (keys : List TypedHash) {acc : List TypedHash × Bool},
      (keys.foldl (closeRoot roots) acc).2 = false → keys.foldl (closeRoot roots) acc = acc
  | [], _, _ => rfl
  | r :: keys, acc, h => by
    rw [List.foldl_cons] at h ⊢
    rcases closeRoot_eq_or_changed roots acc r with hr | ⟨-, hr⟩
    · rw [hr] at h ⊢
      exact foldl_closeRoot_unchanged keys h
    · rw [foldl_closeRoot_changed keys _ (by rw [hr])] at h
      cases h

/-- A pass that reports a change finalized a root of its order that was not finalized. -/
theorem foldl_closeRoot_new :
    ∀ (keys : List TypedHash) {acc : List TypedHash × Bool},
      (keys.foldl (closeRoot roots) acc).2 = true →
        acc.2 = true ∨ ∃ r ∈ keys, r ∉ acc.1 ∧ r ∈ (keys.foldl (closeRoot roots) acc).1
  | [], _, h => .inl h
  | r :: keys, acc, h => by
    rw [List.foldl_cons] at h ⊢
    rcases closeRoot_eq_or_changed roots acc r with hr | ⟨hrF, hr⟩
    · rw [hr] at h ⊢
      rcases foldl_closeRoot_new keys h with h | ⟨x, hx, hnew⟩
      · exact .inl h
      · exact .inr ⟨x, List.mem_cons_of_mem _ hx, hnew⟩
    · exact .inr ⟨r, List.mem_cons_self _ _, hrF,
        foldl_closeRoot_mono keys (by rw [hr]; exact List.mem_cons_self _ _)⟩

/-- After a pass that changes nothing, every root of its order with a finalized derived
root is finalized. -/
theorem foldl_closeRoot_closed :
    ∀ (keys : List TypedHash) {F : List TypedHash},
      (keys.foldl (closeRoot roots) (F, false)).2 = false →
        ∀ r ∈ keys, ∀ c, DerivedLink roots r c → c ∈ F → r ∈ F
  | [], _, _, _, hr, _, _, _ => nomatch hr
  | r :: keys, F, h, x, hx, c, hxc, hc => by
    rw [List.foldl_cons] at h
    rcases closeRoot_eq_or_changed roots (F, false) r with hr | ⟨-, hr⟩
    · rw [hr] at h
      rcases List.mem_cons.mp hx with rfl | hx
      · by_contra hxF
        have hany : ((roots.lookup x).getD []).any (· ∈ F) = true :=
          List.any_eq_true.mpr ⟨c, hxc, decide_eq_true hc⟩
        dsimp only [closeRoot] at hr
        rw [if_pos ⟨hxF, hany⟩] at hr
        exact Bool.noConfusion (congrArg Prod.snd hr)
      · exact foldl_closeRoot_closed keys h x hx c hxc hc
    · rw [foldl_closeRoot_changed keys _ (by rw [hr])] at h
      cases h

/-- A property held by the finalized roots, and by every root of the order that has a
derived root with it, holds of the finalized roots after the pass. -/
theorem foldl_closeRoot_sound (P : TypedHash → Prop) :
    ∀ (keys : List TypedHash) {acc : List TypedHash × Bool}, (∀ x ∈ acc.1, P x) →
      (∀ r ∈ keys, ∀ c, DerivedLink roots r c → P c → P r) →
        ∀ x ∈ (keys.foldl (closeRoot roots) acc).1, P x
  | [], _, hacc, _ => hacc
  | r :: keys, acc, hacc, hstep => by
    refine foldl_closeRoot_sound P keys (fun x hx => ?_)
      (fun r' hr' => hstep r' (List.mem_cons_of_mem _ hr'))
    unfold closeRoot at hx
    split at hx
    · rename_i hc
      rcases List.mem_cons.mp hx with rfl | hx
      · obtain ⟨c, hc, hcF⟩ := List.any_eq_true.mp hc.2
        exact hstep x (List.mem_cons_self _ _) c hc (hacc c (of_decide_eq_true hcF))
      · exact hacc x hx
    · exact hacc x hx

/-! ## The loop -/

variable {sched : Sched}

theorem mem_pass_keys {n : Nat} {r : TypedHash} :
    r ∈ sched.pass n (roots.map (·.1)) ↔ r ∈ roots.map (·.1) :=
  (sched.perm n _).mem_iff

/-- The roots of the map that are not finalized. -/
def unfinalized (roots : List (TypedHash × List TypedHash)) (F : List TypedHash) :
    Finset TypedHash :=
  (roots.map (·.1)).toFinset.filter (· ∉ F)

/-- A pass that reports a change finalizes one more root of the map. -/
theorem unfinalized_lt {n : Nat} {F : List TypedHash}
    (h : (closurePass roots (sched.pass n (roots.map (·.1))) F).2 = true) :
    (unfinalized roots (closurePass roots (sched.pass n (roots.map (·.1))) F).1).card <
      (unfinalized roots F).card := by
  rw [closurePass_eq] at h ⊢
  rcases foldl_closeRoot_new _ h with h | ⟨r, hr, hrF, hr'⟩
  · cases h
  refine Finset.card_lt_card ((Finset.ssubset_iff_of_subset fun x hx => ?_).mpr ⟨r, ?_, ?_⟩)
  · simp only [unfinalized, Finset.mem_filter] at hx ⊢
    exact ⟨hx.1, fun hxF => hx.2 (foldl_closeRoot_mono _ hxF)⟩
  · simp only [unfinalized, Finset.mem_filter, List.mem_toFinset]
    exact ⟨mem_pass_keys.mp hr, hrF⟩
  · simp only [unfinalized, Finset.mem_filter, not_and, not_not]
    exact fun _ => hr'

/-- From any pass, the loop stops after at most one pass more than there are unfinalized
roots of the map. -/
theorem closureRun_exists :
    ∀ (m n : Nat) (F : List TypedHash), (unfinalized roots F).card ≤ m →
      ∃ k F', k ≤ m + 1 ∧ ClosureRun roots sched n F k F'
  | m, n, F, hm => by
    rcases hc : (closurePass roots (sched.pass n (roots.map (·.1))) F).2
    · exact ⟨1, _, by omega, .stop hc⟩
    · have hlt := unfinalized_lt hc
      obtain ⟨m, rfl⟩ : ∃ m', m = m' + 1 := ⟨m - 1, by omega⟩
      obtain ⟨k, F', hk, hrun⟩ :=
        closureRun_exists m (n + 1) (closurePass roots (sched.pass n (roots.map (·.1))) F).1
          (by omega)
      exact ⟨k + 1, F', by omega, .next hc hrun⟩

/-- The loop has one run only. -/
theorem ClosureRun.unique {n k k' : Nat} {F F' F'' : List TypedHash}
    (h : ClosureRun roots sched n F k F') (h' : ClosureRun roots sched n F k' F'') :
    k = k' ∧ F' = F'' := by
  induction h generalizing k' F'' with
  | stop hc =>
    cases h' with
    | stop => exact ⟨rfl, rfl⟩
    | next hc' => rw [hc] at hc'; cases hc'
  | next hc _ ih =>
    cases h' with
    | stop hc' => rw [hc] at hc'; cases hc'
    | next _ hrun =>
      obtain ⟨rfl, rfl⟩ := ih hrun
      exact ⟨rfl, rfl⟩

/-- Given at least as many passes as the run makes, the fuel-bounded loop ends where the
run ends. -/
theorem closureLoop_of_run {n k : Nat} {F F' : List TypedHash}
    (h : ClosureRun roots sched n F k F') :
    ∀ {fuel : Nat}, k ≤ fuel → closureLoop roots sched fuel n F = F' := by
  induction h with
  | stop hc =>
    intro fuel hk
    obtain ⟨fuel, rfl⟩ : ∃ f, fuel = f + 1 := ⟨fuel - 1, by omega⟩
    simp only [closureLoop, hc, Bool.false_eq_true, ite_false]
  | next hc _ ih =>
    intro fuel hk
    obtain ⟨fuel, rfl⟩ : ∃ f, fuel = f + 1 := ⟨fuel - 1, by omega⟩
    simp only [closureLoop, hc, ite_true]
    exact ih (by omega)

/-- What a run keeps: it finalizes every root it started with, it ends closed under the
derived links, and a property of the roots it started with that spreads from derived roots
to their roots holds of the roots it ends with. -/
theorem ClosureRun.spec {n k : Nat} {F F' : List TypedHash}
    (h : ClosureRun roots sched n F k F') :
    (∀ x ∈ F, x ∈ F') ∧ (∀ r c, DerivedLink roots r c → c ∈ F' → r ∈ F') ∧
      ∀ P : TypedHash → Prop, (∀ x ∈ F, P x) →
        (∀ r c, DerivedLink roots r c → P c → P r) → ∀ x ∈ F', P x := by
  induction h with
  | stop hc =>
    rw [closurePass_eq] at hc ⊢
    rw [foldl_closeRoot_unchanged _ hc]
    exact ⟨fun _ hx => hx, fun r c hrc hc' => foldl_closeRoot_closed _ hc r
      (mem_pass_keys.mpr (mem_keys_of_derivedLink hrc)) c hrc hc', fun _ hP _ => hP⟩
  | next _ _ ih =>
    obtain ⟨hmono, hclosed, hsound⟩ := ih
    refine ⟨fun x hx => hmono x ?_, hclosed, fun P hP hstep => hsound P ?_ hstep⟩
    · rw [closurePass_eq]
      exact foldl_closeRoot_mono _ hx
    · rw [closurePass_eq]
      exact foldl_closeRoot_sound P _ hP fun r _ => hstep r

/-- For every roots map, cyclic or not, every seed list and every order of every pass, the
closure loop stops after at most one pass more than the map has roots, `closureLoop` ends
where it ends, and the roots it finalizes are the seeds and the roots of the map from
which a path of derived links reaches a seed. -/
theorem closure_loop_finalizes_ancestors (roots : List (TypedHash × List TypedHash))
    (sched : Sched) (seeds : List TypedHash) :
    ∃ k ≤ (roots.map (·.1)).toFinset.card + 1,
      (∀ k' F, ClosureRun roots sched 0 seeds k' F ↔
        k' = k ∧ F = finalizedRootsOf roots sched seeds) ∧
      ∀ r, r ∈ finalizedRootsOf roots sched seeds ↔
        r ∈ seeds ∨
          (r ∈ roots.map (·.1) ∧ ∃ s ∈ seeds, Relation.TransGen (DerivedLink roots) r s) := by
  obtain ⟨k, F, hk, hrun⟩ : ∃ k F, k ≤ (unfinalized roots seeds).card + 1 ∧
      ClosureRun roots sched 0 seeds k F := closureRun_exists _ 0 seeds le_rfl
  have hcard : (unfinalized roots seeds).card ≤ (roots.map (·.1)).toFinset.card :=
    Finset.card_filter_le _ _
  have hF : finalizedRootsOf roots sched seeds = F :=
    closureLoop_of_run hrun (hk.trans (by
      have := List.toFinset_card_le (roots.map (·.1))
      rw [List.length_map] at this
      omega))
  refine ⟨k, by omega, fun k' F' => ⟨fun h => ?_, ?_⟩, fun r => ?_⟩
  · obtain ⟨rfl, rfl⟩ := hrun.unique h
    exact ⟨rfl, hF.symm⟩
  · rintro ⟨rfl, rfl⟩
    rwa [hF]
  obtain ⟨hmono, hclosed, hsound⟩ := hrun.spec
  rw [hF]
  constructor
  · -- every root the loop finalizes is a seed or reaches one
    refine hsound (fun r => r ∈ seeds ∨
      (r ∈ roots.map (·.1) ∧ ∃ s ∈ seeds, Relation.TransGen (DerivedLink roots) r s))
      (fun x hx => .inl hx) (fun r c hrc hc => .inr ⟨mem_keys_of_derivedLink hrc, ?_⟩) r
    rcases hc with hc | ⟨-, s, hs, hcs⟩
    · exact ⟨c, hc, .single hrc⟩
    · exact ⟨s, hs, .head hrc hcs⟩
  · -- every root that reaches a seed is finalized
    rintro (hr | ⟨-, s, hs, hrs⟩)
    · exact hmono r hr
    · induction hrs using Relation.TransGen.head_induction_on with
      | base hrs => exact hclosed _ _ hrs (hmono s hs)
      | ih hrc _ hc => exact hclosed _ _ hrc hc

/-- On a cycle between roots 1 and 2 with seed 2, the loop finalizes root 1 and leaves the
unlinked root 3. -/
example : finalizedRootsOf [(⟨.state, 1⟩, [⟨.state, 2⟩]), (⟨.state, 2⟩, [⟨.state, 1⟩]),
    (⟨.state, 3⟩, [])] .inOrder [⟨.state, 2⟩] = [⟨.state, 1⟩, ⟨.state, 2⟩] := by
  decide

end Mkvs.Badger
