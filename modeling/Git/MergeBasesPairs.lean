-- The marks are cleared along the paths that set them, so that each painting
-- starts clear, and the comparison of the pairs leaves the best ones.
import Git.MergeBasesLaws

open Relation

namespace git.merge_bases

variable {commit : Type} [DecidableEq commit] [Fintype commit]
variable {g : commit_graph commit} {one : commit} {twos : List commit}

/-! ## The marks are cleared -/

/-- `flags'` is `flags` after the marks were cleared from the commits of
`list` on. -/
structure Cleared (g : commit_graph commit) (flags : flag_map commit) (list : List commit)
    (flags' : flag_map commit) : Prop where
  only : ∀ c, flags' c = flags c ∨ flags' c = ∅
  list : ∀ c ∈ list, flags' c = ∅
  parents : ∀ c, flags c ≠ ∅ → flags' c = ∅ → ∀ p, Parent g c p → flags' p = ∅

omit [DecidableEq commit] [Fintype commit] in
theorem Cleared.append {flags flags' flags'' : flag_map commit} {list list' : List commit}
    (h : Cleared g flags list flags') (h' : Cleared g flags' list' flags'') :
    Cleared g flags (list ++ list') flags'' := by
  have hstays : ∀ c, flags' c = ∅ → flags'' c = ∅ := by
    intro c hc
    rcases h'.only c with heq | heq
    · rw [heq, hc]
    · exact heq
  refine ⟨?_, ?_, ?_⟩
  · intro c
    rcases h'.only c with heq | heq
    · rcases h.only c with heq' | heq'
      · exact Or.inl (heq.trans heq')
      · exact Or.inr (heq.trans heq')
    · exact Or.inr heq
  · intro c hc
    rcases List.mem_append.mp hc with hc | hc
    · exact hstays c (h.list c hc)
    · exact h'.list c hc
  · intro c hne hc p hp
    by_cases hmid : flags' c = ∅
    · exact hstays p (h.parents c hne hmid p hp)
    · exact h'.parents c hmid hc p hp

omit [DecidableEq commit] [Fintype commit] in
/-- What was reached over marked commits is clear. -/
theorem Cleared.clears {flags flags' : flag_map commit} {list : List commit}
    (h : Cleared g flags list flags') (htraced : ∀ c, flags c ≠ ∅ → Traced g flags list c)
    (c : commit) : flags' c = ∅ := by
  by_cases hne : flags c = ∅
  · rcases h.only c with heq | heq
    · rw [heq, hne]
    · exact heq
  · obtain ⟨s, hs, hstart, hpath⟩ := htraced c hne
    -- along the path each commit was marked and is clear
    suffices hclear : flags c ≠ ∅ ∧ flags' c = ∅ from hclear.2
    clear hne
    induction hpath with
    | refl => exact ⟨hstart, h.list s hs⟩
    | tail _ hstep ih => exact ⟨hstep.2, h.parents _ ih.1 ih.2 _ hstep.1⟩

theorem inter_all_flags (f : Finset mark) : all_flags ∩ f = f := by
  revert f
  decide

theorem sdiff_all_flags (f : Finset mark) : f \ all_flags = ∅ := by
  revert f
  decide

omit [Fintype commit] in
/-- A commit was cleared, and the list goes on with its parents. -/
theorem Cleared.cons {flags flags' : flag_map commit} {c : commit} {plist list : List commit}
    (h : Cleared g (Function.update flags c (flags c \ all_flags)) list flags')
    (hparents : ∀ p, Parent g c p → p ∈ list) (hplist : ∀ d ∈ plist, d ∈ list) :
    Cleared g flags (c :: plist) flags' := by
  rw [sdiff_all_flags] at h
  have hself : flags' c = ∅ := by
    rcases h.only c with heq | heq
    · rw [heq, Function.update_self]
    · exact heq
  refine ⟨?_, ?_, ?_⟩
  · intro d
    by_cases hd : d = c
    · exact Or.inr (hd ▸ hself)
    · have := h.only d
      rwa [Function.update_of_ne hd] at this
  · intro d hd
    rcases List.mem_cons.mp hd with rfl | hd
    · exact hself
    · exact h.list d (hplist d hd)
  · intro d hne hd p hp
    by_cases hdc : d = c
    · exact h.list p (hparents p (hdc ▸ hp))
    · refine h.parents d ?_ hd p hp
      rwa [Function.update_of_ne hdc]

theorem clear_commit_list_cleared (g : commit_graph commit) (flags : flag_map commit)
    (list : List commit) : Cleared g flags list (clear_commit_list g all_flags flags list) := by
  induction flags, list using clear_commit_list.induct g all_flags with
  | case1 flags =>
    rw [clear_commit_list]
    exact ⟨fun _ => Or.inl rfl, by simp, fun c hne hc => absurd hc hne⟩
  | case2 flags c plist hmark ih =>
    rw [inter_all_flags] at hmark
    rw [clear_commit_list, dif_pos (by rwa [inter_all_flags])]
    refine ⟨ih.only, ?_, ih.parents⟩
    intro d hd
    rcases List.mem_cons.mp hd with rfl | hd
    · rcases ih.only d with heq | heq
      · rw [heq, hmark]
      · exact heq
    · exact ih.list d hd
  | case3 flags c plist hmark _ _ hparents ih =>
    rw [clear_commit_list, dif_neg hmark]
    simp only [hparents]
    refine Cleared.cons ih ?_ (fun _ h => h)
    intro p hp
    simp [Parent, hparents] at hp
  | case4 flags c plist hmark _ _ p parents hparents ih =>
    rw [List.unattach_reverse, List.unattach_attach] at ih
    rw [clear_commit_list, dif_neg hmark]
    simp only [hparents]
    refine Cleared.cons ih ?_ ?_
    · intro q hq
      simp only [Parent, hparents, List.mem_cons] at hq
      simp only [List.mem_cons, List.mem_append, List.mem_reverse]
      tauto
    · intro d hd
      simp [hd]

theorem clear_all_cleared (g : commit_graph commit) (flags : flag_map commit) (one : commit)
    (twos : List commit) : Cleared g flags (one :: twos) (clear_all g flags one twos) := by
  unfold clear_all
  induction twos using List.reverseRecOn with
  | nil => exact clear_commit_list_cleared g flags [one]
  | append_singleton twos two ih =>
    rw [List.foldl_append]
    exact ih.append (clear_commit_list_cleared g _ [two])

/-- After a painting from clear marks, clearing from its starts leaves none. -/
theorem clear_all_clears (hparse : ∀ c, g.parse_commit c = true) {flags : flag_map commit}
    (hclear : ∀ c, flags c = ∅) (hne : one ∉ twos) (c : commit) :
    clear_all g (merge_bases_many g flags one twos).2 one twos c = ∅ :=
  (clear_all_cleared g _ one twos).clears (merge_bases_many_spec hparse hclear hne).2.2.2 c

/-! ## The pairs -/

theorem mem_pairs (cnt : Nat) (i j : Nat) : (i, j) ∈ pairs cnt ↔ i < j ∧ j < cnt := by
  simp only [pairs, List.mem_flatMap, List.mem_range, List.mem_map, List.mem_range'_1,
    Prod.mk.injEq]
  refine ⟨?_, ?_⟩
  · rintro ⟨i', hi, j', hj, rfl, rfl⟩
    omega
  · rintro ⟨hij, hj⟩
    exact ⟨i, by omega, j, by omega, rfl, rfl⟩

/-- What holds of `rslt`, the result `found` without some of its commits,
after the pairs `done`. -/
structure Compared (g : commit_graph commit) (one : commit) (twos found : List commit)
    (done : List (Nat × Nat)) (s : List (Option commit) × flag_map commit) : Prop where
  clear : ∀ c, s.2 c = ∅
  length : s.1.length = found.length
  kept : ∀ i c, s.1.getD i none = some c → found[i]? = some c
  dropped : ∀ i c, found[i]? = some c → s.1.getD i none = none → ¬ Best g one twos c
  apart : ∀ ij ∈ done, ∀ a b, s.1.getD ij.1 none = some a → s.1.getD ij.2 none = some b →
    ¬ Ancestor g a b ∧ ¬ Ancestor g b a

omit [DecidableEq commit] [Fintype commit] in
theorem getD_set_none (l : List (Option commit)) (i k : Nat) :
    (l.set i none).getD k none = if k = i then none else l.getD k none := by
  by_cases hk : k = i
  · subst hk
    by_cases hlt : k < l.length <;> simp [hlt]
  · simp [hk, Ne.symm hk]

/-- Which of the two commits of a pair are dropped. -/
theorem pair_spec (hdag : ∀ c, ¬ ProperAncestor g c c) (hparse : ∀ c, g.parse_commit c = true)
    {flags : flag_map commit} (hclear : ∀ c, flags c = ∅) {a b : commit} (hab : a ≠ b) :
    (b ∈ (merge_bases_many g flags a [b]).1 ↔ Ancestor g a b) ∧
    (a ∈ (merge_bases_many g flags a [b]).1 ↔ Ancestor g b a) := by
  have hne : a ∉ [b] := by simpa using hab
  obtain ⟨_, hcommon, hbest, _⟩ := merge_bases_many_spec hparse hclear hne
  refine ⟨⟨fun h => (hcommon b h).1, ?_⟩, ⟨?_, ?_⟩⟩
  · intro h
    refine hbest b ⟨⟨h, b, by simp, ReflTransGen.refl⟩, ?_⟩
    rintro c ⟨_, two, htwo, hc⟩ hcb
    obtain rfl : two = b := by simpa using htwo
    exact hdag two (TransGen.trans_right hc hcb)
  · intro h
    obtain ⟨_, two, htwo, ha⟩ := hcommon a h
    obtain rfl : two = b := by simpa using htwo
    exact ha
  · intro h
    refine hbest a ⟨⟨ReflTransGen.refl, b, by simp, h⟩, ?_⟩
    rintro c ⟨hc, _⟩ hca
    exact hdag a (TransGen.trans_right hc hca)

/-- `rslt` after a pair of which both are still there. -/
theorem compare_pair_some {s : List (Option commit) × flag_map commit} {i j : Nat} {a b : commit}
    (ha : s.1.getD i none = some a) (hb : s.1.getD j none = some b) :
    (compare_pair g s (i, j)).1.length = s.1.length ∧
    (∀ k, (compare_pair g s (i, j)).1.getD k none =
      if (k = i ∧ a ∈ (merge_bases_many g s.2 a [b]).1) ∨
          (k = j ∧ b ∈ (merge_bases_many g s.2 a [b]).1) then none else s.1.getD k none) ∧
    (compare_pair g s (i, j)).2 = clear_all g (merge_bases_many g s.2 a [b]).2 a [b] := by
  unfold compare_pair
  simp only [ha, hb]
  refine ⟨?_, ?_, rfl⟩
  · split_ifs <;> simp
  · intro k
    by_cases hia : a ∈ (merge_bases_many g s.2 a [b]).1 <;>
      by_cases hjb : b ∈ (merge_bases_many g s.2 a [b]).1
    · simp only [hia, hjb, if_true, and_true, getD_set_none]
      by_cases hki : k = i <;> by_cases hkj : k = j <;> simp [hki, hkj]
    · simp only [hia, hjb, if_true, if_false, and_true, and_false, or_false, getD_set_none]
    · simp only [hia, hjb, if_true, if_false, and_true, and_false, false_or, getD_set_none]
    · simp only [hia, hjb, if_false, and_false, or_false]

theorem compare_pair_compared (hdag : ∀ c, ¬ ProperAncestor g c c)
    (hparse : ∀ c, g.parse_commit c = true) {found : List commit} (hnodup : found.Nodup)
    (hcommon : ∀ c ∈ found, Common g one twos c) {done : List (Nat × Nat)}
    {s : List (Option commit) × flag_map commit} (h : Compared g one twos found done s) {i j : Nat}
    (hij : i < j) (hj : j < found.length) :
    Compared g one twos found (done ++ [(i, j)]) (compare_pair g s (i, j)) := by
  -- nothing happens to a pair of which one is gone
  have hgone : compare_pair g s (i, j) = s →
      (∀ a b, s.1.getD i none = some a → s.1.getD j none = some b → False) →
      Compared g one twos found (done ++ [(i, j)]) (compare_pair g s (i, j)) := by
    intro hsame hnot
    rw [hsame]
    refine ⟨h.clear, h.length, h.kept, h.dropped, ?_⟩
    intro ij hin a b ha hb
    rcases List.mem_append.mp hin with hin | hin
    · exact h.apart ij hin a b ha hb
    · obtain rfl : ij = (i, j) := by simpa using hin
      exact absurd (hnot a b ha hb) id
  cases ha : s.1.getD i none with
  | none =>
    apply hgone
    · unfold compare_pair
      simp only [ha]
    · intro a b ha'
      rw [ha] at ha'
      simp at ha'
  | some a =>
    cases hb : s.1.getD j none with
    | none =>
      apply hgone
      · unfold compare_pair
        simp only [ha, hb]
      · intro a b _ hb'
        rw [hb] at hb'
        simp at hb'
    | some b =>
      have hfa := h.kept i a ha
      have hfb := h.kept j b hb
      have hab : a ≠ b := by
        rintro rfl
        have hi : i < found.length := by omega
        have := (List.getElem?_inj hi hnodup).mp (hfa.trans hfb.symm)
        omega
      obtain ⟨hmb, hma⟩ := pair_spec hdag hparse h.clear hab
      obtain ⟨hlength, hget, hflags⟩ := compare_pair_some (g := g) ha hb
      have hne : a ∉ [b] := by simpa using hab
      have hca : Common g one twos a := hcommon a (List.mem_of_getElem? hfa)
      have hcb : Common g one twos b := hcommon b (List.mem_of_getElem? hfb)
      have hold : ∀ k c, (compare_pair g s (i, j)).1.getD k none = some c →
          s.1.getD k none = some c := by
        intro k c hk
        rw [hget] at hk
        split_ifs at hk
        exact hk
      refine ⟨?_, hlength.trans h.length, ?_, ?_, ?_⟩
      · rw [hflags]
        exact clear_all_clears hparse h.clear hne
      · intro k c hk
        exact h.kept k c (hold k c hk)
      · intro k c hk hnone
        rw [hget] at hnone
        split_ifs at hnone with hdrop
        · intro hbest
          rcases hdrop with ⟨rfl, hin⟩ | ⟨rfl, hin⟩
          · obtain rfl : a = c := Option.some.inj (hfa.symm.trans hk)
            have hanc : Ancestor g b a := hma.mp hin
            rcases reflTransGen_iff_eq_or_transGen.mp hanc with heq | htrans
            · exact hab heq
            · exact hbest.2 b hcb htrans
          · obtain rfl : b = c := Option.some.inj (hfb.symm.trans hk)
            have hanc : Ancestor g a b := hmb.mp hin
            rcases reflTransGen_iff_eq_or_transGen.mp hanc with heq | htrans
            · exact hab heq.symm
            · exact hbest.2 a hca htrans
        · exact h.dropped k c hk hnone
      · intro ij hin x y hx hy
        rcases List.mem_append.mp hin with hin | hin
        · exact h.apart ij hin x y (hold _ x hx) (hold _ y hy)
        · obtain rfl : ij = (i, j) := by simpa using hin
          have hxa : x = a := Option.some.inj ((hold i x hx).symm.trans ha)
          have hyb : y = b := Option.some.inj ((hold j y hy).symm.trans hb)
          subst hxa hyb
          rw [hget] at hx hy
          refine ⟨?_, ?_⟩
          · intro hanc
            rw [if_pos (Or.inr ⟨rfl, hmb.mpr hanc⟩)] at hy
            simp at hy
          · intro hanc
            rw [if_pos (Or.inl ⟨rfl, hma.mpr hanc⟩)] at hx
            simp at hx

theorem pairs_compared (hdag : ∀ c, ¬ ProperAncestor g c c)
    (hparse : ∀ c, g.parse_commit c = true) {found : List commit} (hnodup : found.Nodup)
    (hcommon : ∀ c ∈ found, Common g one twos c) {flags : flag_map commit}
    (hclear : ∀ c, flags c = ∅) (l : List (Nat × Nat))
    (hl : ∀ ij ∈ l, ij.1 < ij.2 ∧ ij.2 < found.length) :
    Compared g one twos found l (l.foldl (compare_pair g) (found.map some, flags)) := by
  induction l using List.reverseRecOn with
  | nil =>
    have hget : ∀ i, (found.map some).getD i none = found[i]? := by
      intro i
      cases hi : found[i]? with
      | none => simp [hi]
      | some c => simp [hi]
    refine ⟨hclear, by simp, ?_, ?_, by simp⟩
    · intro i c hi
      exact (hget i).symm.trans hi
    · intro i c hi hnone
      have := (hget i).symm.trans hnone
      simp [hi] at this
  | append_singleton l ij ih =>
    obtain ⟨i, j⟩ := ij
    obtain ⟨hij, hj⟩ := hl (i, j) (by simp)
    rw [List.foldl_append]
    exact compare_pair_compared hdag hparse hnodup hcommon
      (ih fun ij hin => hl ij (List.mem_append_left _ hin)) hij hj

omit [DecidableEq commit] [Fintype commit] in
/-- The survivors are the best common ancestors. -/
theorem Compared.survivors [Finite commit] (hdag : ∀ c, ¬ ProperAncestor g c c)
    {found : List commit} (hcommon : ∀ c ∈ found, Common g one twos c)
    (hbest : ∀ c, Best g one twos c → c ∈ found) {s : List (Option commit) × flag_map commit}
    (h : Compared g one twos found (pairs found.length) s) (c : commit) :
    some c ∈ s.1 ↔ Best g one twos c := by
  have hmem : ∀ a, some a ∈ s.1 ↔ ∃ i, s.1.getD i none = some a := by
    intro a
    rw [List.mem_iff_getElem?]
    refine exists_congr fun i => ?_
    cases hi : s.1[i]? with
    | none => simp [hi]
    | some b => simp [hi]
  have hin : ∀ a, Best g one twos a → ∃ i, s.1.getD i none = some a := by
    intro a ha
    obtain ⟨i, hi⟩ := List.mem_iff_getElem?.mp (hbest a ha)
    refine ⟨i, ?_⟩
    cases hs : s.1.getD i none with
    | none => exact absurd ha (h.dropped i a hi hs)
    | some b => exact hi.symm.trans (h.kept i b hs) ▸ rfl
  rw [hmem]
  refine ⟨?_, hin c⟩
  rintro ⟨j, hj⟩
  have hfound := h.kept j c hj
  obtain ⟨a, ha, hac⟩ := (hcommon c (List.mem_of_getElem? hfound)).exists_best hdag
  obtain ⟨i, hi⟩ := hin a ha
  have hlt : ∀ k d, s.1.getD k none = some d → k < found.length := by
    intro k d hk
    exact (List.getElem?_eq_some_iff.mp (h.kept k d hk)).1
  rcases Nat.lt_trichotomy i j with hij | rfl | hij
  · exact absurd hac (h.apart (i, j) ((mem_pairs _ i j).mpr ⟨hij, hlt j c hj⟩) a c hi hj).1
  · exact Option.some.inj (hi.symm.trans hj) ▸ ha
  · exact absurd hac (h.apart (j, i) ((mem_pairs _ j i).mpr ⟨hij, hlt i a hi⟩) c a hj hi).2

/-! ## The merge bases -/

omit [DecidableEq commit] [Fintype commit] in
theorem best_of_itself (hdag : ∀ c, ¬ ProperAncestor g c c) (hin : one ∈ twos) (c : commit) :
    c ∈ [one] ↔ Best g one twos c := by
  have hone : Common g one twos one := ⟨ReflTransGen.refl, one, hin, ReflTransGen.refl⟩
  rw [List.mem_singleton]
  refine ⟨?_, ?_⟩
  · rintro rfl
    refine ⟨hone, ?_⟩
    rintro b ⟨hb, _⟩ hbc
    exact hdag c (TransGen.trans_right hb hbc)
  · rintro ⟨⟨hc, _⟩, habove⟩
    rcases reflTransGen_iff_eq_or_transGen.mp hc with heq | htrans
    · exact heq
    · exact absurd htrans (habove one hone)

omit [DecidableEq commit] [Fintype commit] in
/-- The last loop gathers the survivors. -/
theorem survivors_perm (g : commit_graph commit) (rslt : List (Option commit))
    (result : List commit) :
    (rslt.foldl (fun result c =>
      match c with
      | some c => commit_list_insert_by_date g c result
      | none => result) result).Perm (rslt.reduceOption ++ result) := by
  induction rslt generalizing result with
  | nil => exact List.Perm.refl _
  | cons c rslt ih =>
    rw [List.foldl_cons]
    cases c with
    | none => exact ih result
    | some c =>
      refine (ih _).trans ?_
      refine ((insert_by_date_perm g c result).append_left _).trans ?_
      exact List.perm_middle

omit [DecidableEq commit] [Fintype commit] in
/-- What is left of a list without duplicates has none. -/
theorem Compared.nodup {found : List commit} (hnodup : found.Nodup) {done : List (Nat × Nat)}
    {s : List (Option commit) × flag_map commit} (h : Compared g one twos found done s) :
    s.1.reduceOption.Nodup := by
  have hpair : s.1.Pairwise (fun a b => ∀ c, a = some c → b ≠ some c) := by
    rw [List.pairwise_iff_getElem]
    rintro i j hi hj hij c ha hb
    have hget : ∀ k (hk : k < s.1.length), s.1[k] = some c → found[k]? = some c := by
      intro k hk hkc
      exact h.kept k c (by simp [List.getElem?_eq_getElem hk, hkc])
    have hlt : i < found.length := by
      rw [← h.length]
      exact hi
    have := (List.getElem?_inj hlt hnodup).mp ((hget i hi ha).trans (hget j hj hb).symm)
    omega
  unfold List.reduceOption
  refine List.Pairwise.filterMap _ ?_ hpair
  rintro a b hab c hc d hd rfl
  exact hab c hc hd

variable (one twos) in
/-- The merge bases are the best common ancestors, each of them once, and no commit keeps
a mark. -/
theorem get_merge_bases_many_spec
    (hdag : ∀ c, ¬ ProperAncestor g c c) (hparse : ∀ c, g.parse_commit c = true)
    {flags : flag_map commit} (hclear : ∀ c, flags c = ∅) :
    (∀ c, c ∈ (get_merge_bases_many g flags one twos true).1 ↔ Best g one twos c) ∧
    (get_merge_bases_many g flags one twos true).1.Nodup ∧
    ∀ c, (get_merge_bases_many g flags one twos true).2 c = ∅ := by
  unfold get_merge_bases_many
  by_cases hin : one ∈ twos
  · have hsame : merge_bases_many g flags one twos = ([one], flags) := by
      unfold merge_bases_many
      rw [if_pos hin]
    simp only [hsame, if_pos hin]
    exact ⟨best_of_itself hdag hin, by simp, hclear⟩
  obtain ⟨hnodup, hcommon, hbest, _⟩ := merge_bases_many_spec hparse hclear hin
  have hcleared := clear_all_clears hparse hclear hin
  simp only [if_neg hin]
  by_cases hfew : (merge_bases_many g flags one twos).1.length ≤ 1
  · rw [if_pos hfew]
    refine ⟨?_, hnodup, hcleared⟩
    intro c
    refine ⟨?_, hbest c⟩
    intro hc
    obtain ⟨b, hb, _⟩ := (hcommon c hc).exists_best hdag
    obtain rfl : b = c := by
      have hpos : 0 < (merge_bases_many g flags one twos).1.length := List.length_pos_of_mem hc
      obtain ⟨x, hx⟩ : ∃ x, (merge_bases_many g flags one twos).1 = [x] :=
        List.length_eq_one_iff.mp (by omega)
      have hbx := hbest b hb
      rw [hx, List.mem_singleton] at hbx hc
      rw [hbx, hc]
    exact hb
  · rw [if_neg hfew]
    have hl : ∀ ij ∈ pairs (merge_bases_many g flags one twos).1.length,
        ij.1 < ij.2 ∧ ij.2 < (merge_bases_many g flags one twos).1.length :=
      fun ij hij => (mem_pairs _ ij.1 ij.2).mp hij
    have h := pairs_compared hdag hparse hnodup hcommon hcleared _ hl
    have hsurvive := h.survivors hdag hcommon hbest
    have hperm := survivors_perm g ((pairs (merge_bases_many g flags one twos).1.length).foldl
      (compare_pair g) ((merge_bases_many g flags one twos).1.map some,
        clear_all g (merge_bases_many g flags one twos).2 one twos)).1 []
    rw [List.append_nil] at hperm
    refine ⟨?_, hperm.nodup_iff.mpr (h.nodup hnodup), h.clear⟩
    intro c
    exact (hperm.mem_iff.trans (List.reduceOption_mem_iff)).trans (hsurvive c)

/-- **The merge bases are the best common ancestors**, each of them once,
whatever the dates are, and no commit keeps a mark. -/
theorem the_merge_bases_are_the_best_common_ancestors
    (hdag : ∀ c, ¬ ProperAncestor g c c) (hparse : ∀ c, g.parse_commit c = true)
    {flags : flag_map commit} (hclear : ∀ c, flags c = ∅) :
    (∀ c, c ∈ (get_merge_bases_many g flags one twos true).1 ↔ Best g one twos c) ∧
    (get_merge_bases_many g flags one twos true).1.Nodup ∧
    ∀ c, (get_merge_bases_many g flags one twos true).2 c = ∅ :=
  get_merge_bases_many_spec one twos hdag hparse hclear

-- for the literals
local instance five : NeZero 5 := ⟨by decide⟩

/-- Two merges of the same two commits, one of which is dated before its own
parent. -/
def criss_cross : commit_graph (Fin 5) where
  parents
    | 0 => [2, 3]
    | 1 => [3, 2]
    | 2 => [4]
    | 3 => [4]
    | 4 => []
  date
    | 2 => 1
    | 4 => 3
    | _ => 9
  parse_commit _ := true

theorem above_criss_cross {c a : Fin 5} (h : ProperAncestor criss_cross c a) : c < a ∧ 2 ≤ a := by
  have hparents : ∀ c, ∀ p ∈ criss_cross.parents c, c < p ∧ 2 ≤ p := by decide
  induction h with
  | single hp => exact hparents _ _ hp
  | tail _ hp ih => exact ⟨ih.1.trans (hparents _ _ hp).1, (hparents _ _ hp).2⟩

theorem the_bases_of_a_criss_cross :
    2 ∈ (get_merge_bases_many criss_cross (fun _ => ∅) 0 [1] true).1 ∧
    ∀ c, (get_merge_bases_many criss_cross (fun _ => ∅) 0 [1] true).2 c = ∅ := by
  have hdag : ∀ c, ¬ ProperAncestor criss_cross c c := fun c h => (above_criss_cross h).1.false
  have h : (∀ c, c ∈ (get_merge_bases_many criss_cross (fun _ => ∅) 0 [1] true).1 ↔
      Best criss_cross 0 [1] c) ∧ _ ∧ _ :=
    the_merge_bases_are_the_best_common_ancestors hdag (fun _ => rfl) (fun _ => rfl)
  refine ⟨(h.1 2).mpr ⟨⟨?_, 1, by simp, ?_⟩, ?_⟩, h.2.2⟩
  · exact ReflTransGen.single (show 2 ∈ [2, 3] by simp)
  · exact ReflTransGen.single (show 2 ∈ [3, 2] by simp)
  · rintro b ⟨h0, two, htwo, h1⟩ hb
    obtain rfl : two = 1 := by simpa using htwo
    have hlt := (above_criss_cross hb).1
    rcases reflTransGen_iff_eq_or_transGen.mp h0 with rfl | h0
    · rcases reflTransGen_iff_eq_or_transGen.mp h1 with h1 | h1
      · simp at h1
      · simpa using (above_criss_cross h1).1
    · exact absurd hlt (by simpa using (above_criss_cross h0).2)

end git.merge_bases
