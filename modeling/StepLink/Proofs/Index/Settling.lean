import StepLink.Proofs.Index.Version
import StepLink.Proofs.Workspace.Listing

/-! A full scan halfway through. Some of the listed paths are settled, which means that their entries are
what a read of them makes of the entries at first; the others have the entries that they had at first. Each
commit, in whatever order the commits come, settles one more path. -/

namespace StepLink

open IndexState Disk

variable {α : Type} {setup : IndexSetup α} {equal : α → α → Prop} {pathOf : α → Path} {world : World}
  {s t u : IndexState α} {p q : Path}

/-- The entry of a path once it has been read: the items that were there, if what was read is no change of
them. -/
def settledItems (setup : IndexSetup α) (world : World) (s : IndexState α) (p : Path) : Option (List α) :=
  match world.read p with
  | .ok text =>
    if (s.items? p).any fun previous => agree setup.same previous (setup.parse p text) then s.items? p
    else some (setup.parse p text)
  | .error _ => none

/-- Some tracked file is not listed any more. -/
def hasStale (s : IndexState α) (listed : List Path) : Bool :=
  !s.keys.all fun key => listed.any fun p => p.same key

open Classical in
/-- From the first state to the second, a full scan has settled some of the listed paths, and the rest is
pending. -/
structure Halfway (setup : IndexSetup α) (world : World) (pathOf : α → Path) (listed : List Path)
    (s : IndexState α) (done rest : List Path) (t : IndexState α) : Prop where
  split : (done ++ rest).Perm listed
  settled : ∀ p ∈ done, t.items? p = settledItems setup world s p
  pending : ∀ p ∈ rest, t.items? p = s.items? p
  unlisted : ∀ q, (∀ p ∈ listed, p.same q = false) → t.items? q = none
  order : KeepsOrder s t
  version : t.version = s.version + (if hasStale s listed then 1 else 0) +
    done.countP fun p => settledItems setup world s p ≠ s.items? p
  sound : Sound setup pathOf t
  live : t.isDisposed = false
  settings : SameSettings s t

theorem commit_version (same : α → α → Bool) (s : IndexState α) (p : Path) (items : List α) :
    (s.commit same p items).1.version = s.version + if s.settles same p items then 0 else 1 := by
  rw [commit_fst]
  split <;> rfl

theorem keepFiles_version (s : IndexState α) (test : Path → Bool) (path : Option Path) :
    (s.keepFiles test path).1.version = s.version + if s.keys.all test then 0 else 1 := by
  have hkeys : s.keys.all test = s.files.all fun entry => test entry.1 := by
    rw [keys, List.all_map]
    rfl
  rw [keepFiles_fst, hkeys]
  split <;> rfl

/-- Committing the items of a path settles it. -/
theorem settledItems_commit (law : Lawful setup equal pathOf) (hlive : t.isDisposed = false) {text : Text}
    (hread : world.read p = .ok text) (hpending : t.items? p = s.items? p) :
    (∀ q, (t.commit setup.same p (setup.parse p text)).1.items? q =
        if p.same q then settledItems setup world s p else t.items? q) ∧
      (t.settles setup.same p (setup.parse p text) = true ↔ settledItems setup world s p = s.items? p) := by
  have hsettles : t.settles setup.same p (setup.parse p text) =
      (s.items? p).any fun previous => agree setup.same previous (setup.parse p text) := by
    rw [settles, hlive, hpending, Bool.false_or]
  have hsettled : settledItems setup world s p =
      if t.settles setup.same p (setup.parse p text) then s.items? p else some (setup.parse p text) := by
    rw [settledItems, hread, hsettles]
  refine ⟨fun q => ?_, ?_⟩
  · rw [items?_commit, hsettled]
    cases hset : t.settles setup.same p (setup.parse p text) with
    | true =>
      by_cases hpq : p.same q = true
      · simp [hpq, ← hpending, items?_congr hpq]
      · simp [hpq]
    | false => simp
  · rw [hsettled]
    cases hset : t.settles setup.same p (setup.parse p text) with
    | true => simp
    | false =>
      simp only [Bool.false_eq_true, if_false, false_iff]
      intro heq
      rw [hsettles, ← heq, Option.any_some, agree_refl law.same_refl] at hset
      cases hset

theorem settledItems_drop {e : ReadError} (hread : world.read p = .error e)
    (hpending : t.items? p = s.items? p)
    (hbelow : ∀ q, t.isTracked q = true → q.startsWith p = true → p.same q = true) :
    (∀ q, (t.dropBelow p false).1.items? q = if p.same q then settledItems setup world s p else t.items? q) ∧
      ((t.keys.all fun key => !key.startsWith p) = true ↔ settledItems setup world s p = s.items? p) := by
  have hsettled : settledItems setup world s p = none := by rw [settledItems, hread]
  refine ⟨fun q => ?_, ?_⟩
  · rw [items?_dropBelow, hsettled]
    by_cases hpq : p.same q = true
    · rw [if_pos hpq, if_pos (Path.startsWith_of_same (Path.same_symm hpq))]
    · rw [if_neg hpq]
      split
      next hstarts =>
        cases htracked : t.isTracked q with
        | true => exact absurd (hbelow q htracked hstarts) hpq
        | false => exact (Option.not_isSome_iff_eq_none.mp (Bool.eq_false_iff.mp htracked)).symm
      next => rfl
  · rw [hsettled, ← hpending, List.all_eq_true, eq_comm]
    refine ⟨fun hall => ?_, fun hnone key hkey => ?_⟩
    · cases hitems : t.items? p with
      | none => rfl
      | some items =>
        obtain ⟨key, hentry, hsame⟩ := mem_of_lookup hitems
        have hkey := hall key (List.mem_map_of_mem hentry)
        rw [Path.startsWith_of_same hsame] at hkey
        cases hkey
    · rw [Bool.not_eq_true', ← Bool.not_eq_true]
      intro hstarts
      have htracked := isTracked_of_mem_keys hkey
      rw [isTracked, ← items?_congr (hbelow key htracked hstarts), hnone] at htracked
      cases htracked

namespace Halfway

variable {listed done rest before after : List Path}

theorem start (law : Lawful setup equal pathOf) (hsound : Sound setup pathOf s) (hlive : s.isDisposed = false)
    (listed : List Path) : Halfway setup world pathOf listed s [] listed (s.keepListed listed).1 where
  split := .refl listed
  settled _ hp := by cases hp
  pending p hp := by
    rw [items?_keepListed, if_pos]
    exact List.any_eq_true.mpr ⟨p, hp, Path.same_refl p⟩
  unlisted q hq := by
    rw [items?_keepListed, if_neg]
    rw [Bool.not_eq_true, List.any_eq_false]
    intro p hp
    rw [hq p hp]
    exact Bool.false_ne_true
  order := (Revision.keepFiles setup s _ _).keepsOrder hsound.distinct
  version := by
    rw [keepListed, keepFiles_version, hasStale]
    cases s.keys.all fun key => listed.any fun p => p.same key <;> simp
  sound := hsound.of_section law (.keep listed)
  live := (keepFiles_sameSettings s _ _).isDisposed.trans hlive
  settings := keepFiles_sameSettings s _ _

theorem exists_listed (h : Halfway setup world pathOf listed s done rest t) (hq : t.isTracked q = true) :
    ∃ p ∈ listed, p.same q = true := by
  by_contra hnone
  have hunlisted := h.unlisted q fun p hp => Bool.eq_false_iff.mpr fun hsame => hnone ⟨p, hp, hsame⟩
  rw [isTracked, hunlisted] at hq
  cases hq

/-- Below a listed path nothing else is tracked. -/
theorem same_of_startsWith (h : Halfway setup world pathOf listed s done rest t)
    (hlisted : listed.Pairwise Apart) (hp : p ∈ listed) (hq : t.isTracked q = true)
    (hstarts : q.startsWith p = true) : p.same q = true := by
  obtain ⟨p', hp', hsame⟩ := h.exists_listed hq
  have hsymm : Std.Symm Apart := ⟨fun _ _ => Apart.symm⟩
  by_cases heq : p = p'
  · rwa [heq]
  · have hapart := hlisted.forall hp hp' heq
    rw [← Path.startsWith_congr hsame, hapart.2] at hstarts
    cases hstarts

/-- A section that settles one of the pending paths, and nothing else. -/
theorem settle (h : Halfway setup world pathOf listed s done (before ++ p :: after) t)
    (hlisted : listed.Pairwise Apart) (law : Lawful setup equal pathOf) (hsection : Section setup t u)
    (hitems : ∀ q, u.items? q = if p.same q then settledItems setup world s p else t.items? q)
    (hversion : ∃ kept : Bool, (kept = true ↔ settledItems setup world s p = s.items? p) ∧
      u.version = t.version + if kept then 0 else 1)
    (hsettings : SameSettings t u) :
    Halfway setup world pathOf listed s (done ++ [p]) (before ++ after) u := by
  have hsplit : (p :: (done ++ (before ++ after))).Perm listed := by
    refine List.Perm.trans ?_ h.split
    rw [← List.append_assoc, ← List.append_assoc]
    exact List.perm_middle.symm
  have hothers : ∀ q ∈ done ++ (before ++ after), p.same q = false := by
    have hpairwise := (hsplit.pairwise_iff Apart.symm).mpr hlisted
    exact fun q hq => ((List.pairwise_cons.mp hpairwise).1 q hq).not_same
  have hp : p ∈ listed := hsplit.subset List.mem_cons_self
  have hpending : t.items? p = s.items? p := h.pending p (by simp)
  refine ⟨?_, fun q hq => ?_, fun q hq => ?_, fun q hq => ?_, ?_, ?_, h.sound.of_section law hsection, ?_, ?_⟩
  · refine List.Perm.trans ?_ hsplit
    rw [List.append_assoc]
    exact List.perm_middle
  · rcases List.mem_append.mp hq with hq | hq
    · rw [hitems, hothers q (List.mem_append_left _ hq)]
      exact h.settled q hq
    · rw [List.mem_singleton.mp hq, hitems, if_pos (Path.same_refl p)]
  · rw [hitems, hothers q (List.mem_append_right _ hq)]
    refine h.pending q ?_
    rcases List.mem_append.mp hq with hq | hq
    · exact List.mem_append_left _ hq
    · exact List.mem_append_right _ (List.mem_cons_of_mem p hq)
  · rw [hitems, hq p hp]
    exact h.unlisted q hq
  · refine h.order.trans (hsection.revision.keepsOrder h.sound.distinct) fun q hq hnone => ?_
    by_cases hpq : p.same q = true
    · rw [← items?_congr hpq, ← hpending, items?_congr hpq, hnone]
    · rw [isTracked, hitems, if_neg hpq, hnone] at hq
      cases hq
  · obtain ⟨kept, hkept, hversion⟩ := hversion
    rw [hversion, h.version, List.countP_append, List.countP_singleton, Nat.add_assoc (s.version + _)]
    congr 2
    cases kept <;> simp_all
  · exact hsettings.isDisposed.trans h.live
  · exact h.settings.trans hsettings

theorem commit (h : Halfway setup world pathOf listed s done (before ++ p :: after) t)
    (hlisted : listed.Pairwise Apart) (law : Lawful setup equal pathOf) {text : Text}
    (hread : world.read p = .ok text) :
    Halfway setup world pathOf listed s (done ++ [p]) (before ++ after)
      (t.commit setup.same p (setup.parse p text)).1 := by
  obtain ⟨hitems, hkept⟩ := settledItems_commit (s := s) law h.live hread (h.pending p (by simp))
  exact h.settle hlisted law (.commit p text) hitems ⟨_, hkept, commit_version _ _ _ _⟩
    (commit_sameSettings _ _ _ _)

theorem drop (h : Halfway setup world pathOf listed s done (before ++ p :: after) t)
    (hlisted : listed.Pairwise Apart) (law : Lawful setup equal pathOf) {e : ReadError}
    (hread : world.read p = .error e) :
    Halfway setup world pathOf listed s (done ++ [p]) (before ++ after) (t.dropBelow p false).1 := by
  have hp : p ∈ listed := h.split.subset (by simp)
  obtain ⟨hitems, hkept⟩ := settledItems_drop (s := s) hread (h.pending p (by simp)) fun q hq hstarts =>
    h.same_of_startsWith hlisted hp hq hstarts
  exact h.settle hlisted law (.drop p false) hitems ⟨_, hkept, keepFiles_version t _ _⟩
    (dropBelow_sameSettings _ _ _)

/-- What does not touch the files leaves a full scan where it is. -/
theorem congr (h : Halfway setup world pathOf listed s done rest t) (law : Lawful setup equal pathOf)
    (hsection : Section setup t u) (hfiles : u.files = t.files) (hversion : u.version = t.version)
    (hsettings : SameSettings t u) : Halfway setup world pathOf listed s done rest u where
  split := h.split
  settled p hp := by
    rw [items?_eq_lookup, hfiles]
    exact h.settled p hp
  pending p hp := by
    rw [items?_eq_lookup, hfiles]
    exact h.pending p hp
  unlisted q hq := by
    rw [items?_eq_lookup, hfiles]
    exact h.unlisted q hq
  order := by
    obtain ⟨fresh, hkeys, hfresh⟩ := h.order
    have htracked : u.isTracked = t.isTracked := by
      funext q
      rw [isTracked, items?_eq_lookup, hfiles]
      rfl
    refine ⟨fresh, ?_, hfresh⟩
    rw [htracked, ← hkeys, keys, hfiles, keys]
  version := hversion.trans h.version
  sound := h.sound.of_section law hsection
  live := hsettings.isDisposed.trans h.live
  settings := h.settings.trans hsettings

theorem perm (h : Halfway setup world pathOf listed s done rest t) {done' rest' : List Path}
    (hdone : done'.Perm done) (hrest : rest'.Perm rest) :
    Halfway setup world pathOf listed s done' rest' t where
  split := (hdone.append hrest).trans h.split
  settled p hp := h.settled p (hdone.subset hp)
  pending p hp := h.pending p (hrest.subset hp)
  unlisted := h.unlisted
  order := h.order
  version := by rw [h.version, hdone.countP_eq]
  sound := h.sound
  live := h.live
  settings := h.settings

end Halfway

end StepLink
