-- What the painting finds, in whatever order the dates make it go: each best
-- common ancestor, and no commit that is not a common ancestor. Comparing in
-- pairs leaves the best ones.
import Git.MergeBases
import Git.Lib.Acyclic

open Relation

namespace git.merge_bases

variable {commit : Type}

/-! ## Ancestors -/

def Parent (g : commit_graph commit) (c p : commit) : Prop := p ∈ g.parents c

/-- `a` is an ancestor of `c`, or `c` itself. -/
def Ancestor (g : commit_graph commit) (c a : commit) : Prop := ReflTransGen (Parent g) c a

def ProperAncestor (g : commit_graph commit) (c a : commit) : Prop := TransGen (Parent g) c a

/-- A common ancestor of `one` and one of `twos`. -/
def Common (g : commit_graph commit) (one : commit) (twos : List commit) (a : commit) : Prop :=
  Ancestor g one a ∧ ∃ two ∈ twos, Ancestor g two a

/-- A common ancestor that is above no other one. -/
def Best (g : commit_graph commit) (one : commit) (twos : List commit) (a : commit) : Prop :=
  Common g one twos a ∧ ∀ b, Common g one twos b → ¬ ProperAncestor g b a

variable {g : commit_graph commit} {one : commit} {twos : List commit}

/-- In a finite graph without cycles there is a best one below each. -/
theorem Common.exists_best [Finite commit] (hdag : ∀ c, ¬ ProperAncestor g c c) {a : commit}
    (h : Common g one twos a) : ∃ b, Best g one twos b ∧ Ancestor g b a := by
  have hwf : WellFounded (ProperAncestor g) := acyclic.Acyclic.wf_trans hdag
  obtain ⟨b, ⟨hb, hba⟩, hmin⟩ :=
    hwf.has_min {b | Common g one twos b ∧ Ancestor g b a} ⟨a, h, ReflTransGen.refl⟩
  refine ⟨b, ⟨hb, ?_⟩, hba⟩
  intro c hc hcb
  exact hmin c ⟨hc, hcb.to_reflTransGen.trans hba⟩ hcb

/-! ## The marks -/

/-- A start that has a mark leads to the commit, over commits that have one. -/
def Traced (g : commit_graph commit) (flags : flag_map commit) (starts : List commit) (c : commit) :
    Prop :=
  ∃ s ∈ starts, flags s ≠ ∅ ∧ ReflTransGen (fun d p => Parent g d p ∧ flags p ≠ ∅) s c

theorem Traced.mono {flags flags' : flag_map commit} {starts : List commit} {c : commit}
    (h : Traced g flags starts c) (hsub : ∀ d, flags d ⊆ flags' d) : Traced g flags' starts c := by
  have hne : ∀ d, flags d ≠ ∅ → flags' d ≠ ∅ := by
    intro d hd hc
    exact hd (Finset.subset_empty.mp (hc ▸ hsub d))
  obtain ⟨s, hs, hflag, hpath⟩ := h
  exact ⟨s, hs, hne s hflag, hpath.lift id fun _ p hp => ⟨hp.1, hne p hp.2⟩⟩

theorem Traced.parent {flags : flag_map commit} {starts : List commit} {c p : commit}
    (h : Traced g flags starts c) (hp : Parent g c p) (hflag : flags p ≠ ∅) :
    Traced g flags starts p := by
  obtain ⟨s, hs, hstart, hpath⟩ := h
  exact ⟨s, hs, hstart, hpath.tail ⟨hp, hflag⟩⟩

theorem mem_handed_down (m : mark) (flags : Finset mark) : m ∈ handed_down flags ↔
    (m ∈ flags ∧ m ≠ .RESULT) ∨ (m = .STALE ∧ .PARENT1 ∈ flags ∧ .PARENT2 ∈ flags) := by
  revert m flags
  decide

theorem mem_insert_by_date (g : commit_graph commit) (item c : commit) (list : List commit) :
    c ∈ commit_list_insert_by_date g item list ↔ c = item ∨ c ∈ list := by
  induction list with
  | nil => simp [commit_list_insert_by_date]
  | cons p list ih =>
    unfold commit_list_insert_by_date
    split
    · simp
    · simp only [List.mem_cons, ih]
      tauto

theorem insert_by_date_perm (g : commit_graph commit) (item : commit) (list : List commit) :
    (commit_list_insert_by_date g item list).Perm (item :: list) := by
  induction list with
  | nil => exact List.Perm.refl _
  | cons p list ih =>
    unfold commit_list_insert_by_date
    split
    · exact List.Perm.refl _
    · exact (ih.cons p).trans (List.Perm.swap item p list)

/-- The clean-up keeps the results that are not stale. -/
theorem clean_up_perm (g : commit_graph commit) (keep : commit → Prop) [DecidablePred keep]
    (list result : List commit) :
    (list.foldl (fun result c => if keep c then commit_list_insert_by_date g c result else result)
      result).Perm (list.filter keep ++ result) := by
  induction list generalizing result with
  | nil => exact List.Perm.refl _
  | cons c list ih =>
    rw [List.foldl_cons]
    by_cases hc : keep c
    · rw [if_pos hc, List.filter_cons_of_pos (by simpa using hc)]
      refine (ih _).trans ?_
      refine ((insert_by_date_perm g c result).append_left _).trans ?_
      exact List.perm_middle
    · rw [if_neg hc, List.filter_cons_of_neg (by simpa using hc)]
      exact ih result

/-! ## The invariant -/

/-- The invariant of the painting. -/
structure Painted (g : commit_graph commit) (one : commit) (twos : List commit)
    (s : painting commit) : Prop where
  parent1 : ∀ c, mark.PARENT1 ∈ s.flags c → Ancestor g one c
  parent2 : ∀ c, mark.PARENT2 ∈ s.flags c → ∃ two ∈ twos, Ancestor g two c
  stale : ∀ c, mark.STALE ∈ s.flags c → ∃ d, Common g one twos d ∧ ProperAncestor g d c
  start1 : mark.PARENT1 ∈ s.flags one
  start2 : ∀ two ∈ twos, mark.PARENT2 ∈ s.flags two
  handed : ∀ c, c ∉ s.list → ∀ p, Parent g c p → handed_down (s.flags c) ⊆ s.flags p
  result : ∀ c, c ∈ s.result ↔ mark.RESULT ∈ s.flags c
  nodup : s.result.Nodup
  both : ∀ c, mark.RESULT ∈ s.flags c → mark.PARENT1 ∈ s.flags c ∧ mark.PARENT2 ∈ s.flags c
  found : ∀ c, c ∉ s.list → mark.PARENT1 ∈ s.flags c → mark.PARENT2 ∈ s.flags c →
    mark.STALE ∉ s.flags c → mark.RESULT ∈ s.flags c
  traced : ∀ c, s.flags c ≠ ∅ → Traced g s.flags (one :: twos) c

/-- When only stale commits are left, a best common ancestor has both marks:
the commits on the way to it are not stale, and were gone through. -/
theorem Painted.way_marked {s : painting commit} (h : Painted g one twos s)
    (hstop : interesting s = false) {best : commit} (hbest : Best g one twos best) {m : mark}
    (hm : m ≠ .RESULT) {start : commit} (hstart : m ∈ s.flags start) {c : commit}
    (hc : Ancestor g start c) (hway : Ancestor g c best) : m ∈ s.flags c := by
  induction hc with
  | refl => exact hstart
  | @tail d c hd hdc ih =>
    have hproper : ProperAncestor g d best := TransGen.head' hdc hway
    have hmd := ih (hproper.to_reflTransGen)
    have hfresh : mark.STALE ∉ s.flags d := by
      intro hst
      obtain ⟨e, he, hed⟩ := h.stale d hst
      exact hbest.2 e he (hed.trans hproper)
    have hout : d ∉ s.list := by
      intro hin
      have := List.any_eq_false.mp hstop d hin
      simp [hfresh] at this
    exact h.handed d hout c hdc ((mem_handed_down m _).mpr (Or.inl ⟨hmd, hm⟩))

theorem Painted.best_found {s : painting commit} (h : Painted g one twos s)
    (hstop : interesting s = false) {c : commit} (hbest : Best g one twos c) :
    c ∈ s.result ∧ mark.STALE ∉ s.flags c := by
  obtain ⟨hone, two, htwo, hto⟩ := hbest.1
  have hself : Ancestor g c c := ReflTransGen.refl
  have h1 := h.way_marked hstop hbest (by simp) h.start1 hone hself
  have h2 := h.way_marked hstop hbest (by simp) (h.start2 two htwo) hto hself
  have hfresh : mark.STALE ∉ s.flags c := by
    intro hst
    obtain ⟨e, he, hec⟩ := h.stale c hst
    exact hbest.2 e he hec
  have hout : c ∉ s.list := by
    intro hin
    have := List.any_eq_false.mp hstop c hin
    simp [hfresh] at this
  exact ⟨(h.result c).mpr (h.found c hout h1 h2 hfresh), hfresh⟩

variable [DecidableEq commit]

@[simp] theorem painting.paint_list (s : painting commit) (c : commit) (flags : Finset mark) :
    (s.paint c flags).list = s.list := rfl

@[simp] theorem painting.paint_result (s : painting commit) (c : commit) (flags : Finset mark) :
    (s.paint c flags).result = s.result := rfl

theorem painting.mem_paint (s : painting commit) (c d : commit) (flags : Finset mark) (m : mark) :
    m ∈ (s.paint c flags).flags d ↔ m ∈ s.flags d ∨ (d = c ∧ m ∈ flags) := by
  by_cases hd : d = c
  · subst hd
    simp [painting.paint]
  · simp [painting.paint, hd]

/-! ## One turn -/

/-- What the loop over `parents` does to a painting. -/
structure HandsDown (flags : Finset mark) (parents : List commit) (s t : painting commit) :
    Prop where
  result : t.result = s.result
  grows : ∀ c, s.flags c ⊆ t.flags c
  only : ∀ c m, m ∈ t.flags c → m ∈ s.flags c ∨ (c ∈ parents ∧ m ∈ flags)
  parents : ∀ p ∈ parents, flags ⊆ t.flags p
  list : ∀ c, c ∈ s.list → c ∈ t.list
  changed : ∀ c, c ∉ t.list → t.flags c = s.flags c

theorem paint_parents_hands_down (hparse : ∀ c, g.parse_commit c = true) (flags : Finset mark)
    (parents : List commit) (s : painting commit) :
    ∃ t, paint_parents g flags parents s = .ok t ∧ HandsDown flags parents s t := by
  induction parents generalizing s with
  | nil =>
    refine ⟨s, rfl, rfl, fun _ => Finset.Subset.refl _, ?_, by simp, fun _ h => h, fun _ _ => rfl⟩
    intro c m hm
    exact Or.inl hm
  | cons p parents ih =>
    unfold paint_parents
    by_cases hsub : flags ⊆ s.flags p
    · obtain ⟨t, ht, hdown⟩ := ih s
      rw [if_pos hsub]
      refine ⟨t, ht, hdown.result, hdown.grows, ?_, ?_, hdown.list, hdown.changed⟩
      · intro c m hm
        rcases hdown.only c m hm with h | ⟨hc, hm⟩
        · exact Or.inl h
        · exact Or.inr ⟨List.mem_cons_of_mem _ hc, hm⟩
      · intro q hq
        rcases List.mem_cons.mp hq with rfl | hq
        · exact hsub.trans (hdown.grows q)
        · exact hdown.parents q hq
    · rw [if_neg hsub, hparse p]
      obtain ⟨t, ht, hdown⟩ :=
        ih { s.paint p flags with list := commit_list_insert_by_date g p s.list }
      have hgrow : ∀ c, s.flags c ⊆ (s.paint p flags).flags c := by
        intro c m hm
        exact (s.mem_paint p c flags m).mpr (Or.inl hm)
      refine ⟨t, ht, hdown.result, ?_, ?_, ?_, ?_, ?_⟩
      · intro c
        exact (hgrow c).trans (hdown.grows c)
      · intro c m hm
        rcases hdown.only c m hm with h | ⟨hc, hm⟩
        · rcases (s.mem_paint p c flags m).mp h with h | ⟨rfl, hm⟩
          · exact Or.inl h
          · exact Or.inr ⟨List.mem_cons_self, hm⟩
        · exact Or.inr ⟨List.mem_cons_of_mem _ hc, hm⟩
      · intro q hq
        rcases List.mem_cons.mp hq with rfl | hq
        · intro m hm
          exact hdown.grows q ((s.mem_paint q q flags m).mpr (Or.inr ⟨rfl, hm⟩))
        · exact hdown.parents q hq
      · intro c hc
        exact hdown.list c ((mem_insert_by_date g p c s.list).mpr (Or.inr hc))
      · intro c hc
        have hne : c ≠ p := by
          rintro rfl
          exact hc (hdown.list c ((mem_insert_by_date g c c s.list).mpr (Or.inl rfl)))
        rw [hdown.changed c hc]
        simp [painting.paint, Function.update_of_ne hne]

/-- The painting without its first commit, which is a result when both sides
have reached it. -/
def taken (g : commit_graph commit) (s : painting commit) (c : commit) (list : List commit) :
    painting commit :=
  if s.flags c ∩ {.PARENT1, .PARENT2, .STALE} = {.PARENT1, .PARENT2} ∧ mark.RESULT ∉ s.flags c then
    { s.paint c {.RESULT} with
      list := list, result := commit_list_insert_by_date g c s.result }
  else { s with list := list }

theorem both_marks (flags : Finset mark) : flags ∩ {.PARENT1, .PARENT2, .STALE} =
    {.PARENT1, .PARENT2} ↔ .PARENT1 ∈ flags ∧ .PARENT2 ∈ flags ∧ .STALE ∉ flags := by
  revert flags
  decide

theorem pop_taken {s : painting commit} {c : commit} {list : List commit}
    (hl : s.list = c :: list) : pop g s =
      paint_parents g (handed_down (s.flags c)) (g.parents c) (taken g s c list) := by
  unfold pop taken
  simp only [hl]
  rfl

theorem mem_taken {s : painting commit} {c : commit} {list : List commit} (d : commit) (m : mark) :
    m ∈ (taken g s c list).flags d ↔ m ∈ s.flags d ∨
      (d = c ∧ m = .RESULT ∧ .PARENT1 ∈ s.flags c ∧ .PARENT2 ∈ s.flags c ∧ .STALE ∉ s.flags c) := by
  unfold taken
  by_cases hboth : s.flags c ∩ {.PARENT1, .PARENT2, .STALE} = {.PARENT1, .PARENT2} ∧
      mark.RESULT ∉ s.flags c
  · rw [if_pos hboth]
    have hm := s.mem_paint c d {.RESULT} m
    have := (both_marks _).mp hboth.1
    simp only [Finset.mem_singleton] at hm
    simp only [hm]
    tauto
  · rw [if_neg hboth]
    simp only
    refine ⟨Or.inl, ?_⟩
    rintro (h | ⟨rfl, rfl, h⟩)
    · exact h
    · by_contra hnot
      exact hboth ⟨(both_marks _).mpr h, hnot⟩

theorem taken_result {s : painting commit} {c : commit} {list : List commit}
    (h : Painted g one twos s) : (∀ d, d ∈ (taken g s c list).result ↔
      mark.RESULT ∈ (taken g s c list).flags d) ∧ (taken g s c list).result.Nodup := by
  unfold taken
  by_cases hboth : s.flags c ∩ {.PARENT1, .PARENT2, .STALE} = {.PARENT1, .PARENT2} ∧
      mark.RESULT ∉ s.flags c
  · rw [if_pos hboth]
    refine ⟨?_, ?_⟩
    · intro d
      have hm := s.mem_paint c d {.RESULT} .RESULT
      simp only [mem_insert_by_date, h.result, hm, Finset.mem_singleton]
      tauto
    · refine (insert_by_date_perm g c s.result).nodup_iff.mpr (List.nodup_cons.mpr ⟨?_, h.nodup⟩)
      rw [h.result]
      exact hboth.2
  · rw [if_neg hboth]
    exact ⟨h.result, h.nodup⟩

theorem taken_list (s : painting commit) (c : commit) (list : List commit) :
    (taken g s c list).list = list := by
  unfold taken
  split <;> rfl

/-- The flags that are handed down do not change with `RESULT`. -/
theorem handed_down_congr {f f' : Finset mark} (h : ∀ m, m ≠ .RESULT → (m ∈ f ↔ m ∈ f')) :
    handed_down f = handed_down f' := by
  ext m
  rw [mem_handed_down, mem_handed_down]
  have h1 := h .PARENT1 (by simp)
  have h2 := h .PARENT2 (by simp)
  have hm := h m
  tauto

/-- One turn keeps the invariant. -/
theorem pop_painted (hparse : ∀ c, g.parse_commit c = true) {s : painting commit}
    (h : Painted g one twos s) (hint : interesting s = true) :
    ∃ t, pop g s = .ok t ∧ Painted g one twos t := by
  obtain ⟨c, list, hl⟩ : ∃ c list, s.list = c :: list := by
    cases hl : s.list with
    | nil => simp [interesting, hl] at hint
    | cons c list => exact ⟨c, list, rfl⟩
  obtain ⟨t, ht, hdown⟩ := paint_parents_hands_down hparse (handed_down (s.flags c)) (g.parents c)
    (taken g s c list)
  rw [pop_taken hl]
  refine ⟨t, ht, ?_⟩
  have hold : ∀ d m, m ∈ s.flags d → m ∈ t.flags d := by
    intro d m hm
    exact hdown.grows d ((mem_taken d m).mpr (Or.inl hm))
  -- where a mark of `t` comes from
  have hfrom : ∀ d m, m ∈ t.flags d → m ∈ s.flags d ∨
      (d = c ∧ m = .RESULT ∧ .PARENT1 ∈ s.flags c ∧ .PARENT2 ∈ s.flags c ∧ .STALE ∉ s.flags c) ∨
      (Parent g c d ∧ m ∈ handed_down (s.flags c)) := by
    intro d m hm
    rcases hdown.only d m hm with hm | hm
    · rcases (mem_taken d m).mp hm with hm | hm
      · exact Or.inl hm
      · exact Or.inr (Or.inl hm)
    · exact Or.inr (Or.inr hm)
  have hcommon : ∀ d, mark.PARENT1 ∈ s.flags d → mark.PARENT2 ∈ s.flags d →
      Common g one twos d := fun d h1 h2 => ⟨h.parent1 d h1, h.parent2 d h2⟩
  have hlist : ∀ d, d ∉ t.list → d = c ∨ d ∉ s.list := by
    intro d hd
    by_cases hdc : d = c
    · exact Or.inl hdc
    · refine Or.inr ?_
      intro hin
      rw [hl] at hin
      rcases List.mem_cons.mp hin with hin | hin
      · exact hdc hin
      · exact hd (hdown.list d (by rwa [taken_list]))
  have hkept : ∀ d, d ∉ t.list → ∀ m, m ≠ .RESULT → (m ∈ t.flags d ↔ m ∈ s.flags d) := by
    intro d hd m hm
    rw [hdown.changed d hd, mem_taken]
    tauto
  refine ⟨?_, ?_, ?_, ?_, ?_, ?_, ?_, ?_, ?_, ?_, ?_⟩
  · intro d hm
    rcases hfrom d _ hm with hm | ⟨_, hm, _⟩ | ⟨hp, hm⟩
    · exact h.parent1 d hm
    · simp at hm
    · rcases (mem_handed_down _ _).mp hm with ⟨hm, _⟩ | ⟨hm, _⟩
      · exact (h.parent1 c hm).tail hp
      · simp at hm
  · intro d hm
    rcases hfrom d _ hm with hm | ⟨_, hm, _⟩ | ⟨hp, hm⟩
    · exact h.parent2 d hm
    · simp at hm
    · rcases (mem_handed_down _ _).mp hm with ⟨hm, _⟩ | ⟨hm, _⟩
      · obtain ⟨two, htwo, hto⟩ := h.parent2 c hm
        exact ⟨two, htwo, hto.tail hp⟩
      · simp at hm
  · intro d hm
    rcases hfrom d _ hm with hm | ⟨_, hm, _⟩ | ⟨hp, hm⟩
    · exact h.stale d hm
    · simp at hm
    · rcases (mem_handed_down _ _).mp hm with ⟨hm, _⟩ | ⟨_, h1, h2⟩
      · obtain ⟨e, he, hto⟩ := h.stale c hm
        exact ⟨e, he, hto.tail hp⟩
      · exact ⟨c, hcommon c h1 h2, TransGen.single hp⟩
  · exact hold one _ h.start1
  · intro two htwo
    exact hold two _ (h.start2 two htwo)
  · intro d hd p hp
    have hsame : handed_down (t.flags d) = handed_down (s.flags d) := handed_down_congr (hkept d hd)
    rw [hsame]
    rcases hlist d hd with rfl | hout
    · exact hdown.parents p hp
    · intro m hm
      exact hold p m (h.handed d hout p hp hm)
  · intro d
    rw [hdown.result, (taken_result h).1 d]
    refine ⟨fun hm => hdown.grows d hm, ?_⟩
    intro hm
    rcases hdown.only d _ hm with hm | ⟨_, hm⟩
    · exact hm
    · simp [mem_handed_down] at hm
  · rw [hdown.result]
    exact (taken_result h).2
  · intro d hm
    have hboth : mark.PARENT1 ∈ s.flags d ∧ mark.PARENT2 ∈ s.flags d := by
      rcases hfrom d _ hm with hm | ⟨rfl, _, h1, h2, _⟩ | ⟨_, hm⟩
      · exact h.both d hm
      · exact ⟨h1, h2⟩
      · simp [mem_handed_down] at hm
    exact ⟨hold d _ hboth.1, hold d _ hboth.2⟩
  · intro d hd h1 h2 hstale
    rw [hkept d hd _ (by simp)] at h1 h2 hstale
    rw [hdown.changed d hd, mem_taken]
    rcases hlist d hd with rfl | hout
    · exact Or.inr ⟨rfl, rfl, h1, h2, hstale⟩
    · exact Or.inl (h.found d hout h1 h2 hstale)
  · intro d hne
    obtain ⟨m, hm⟩ := Finset.nonempty_iff_ne_empty.mpr hne
    have hmono : ∀ e, Traced g s.flags (one :: twos) e → Traced g t.flags (one :: twos) e :=
      fun e he => he.mono (fun d m => hold d m)
    rcases hfrom d m hm with hm | ⟨rfl, _, h1, _⟩ | ⟨hp, hm⟩
    · exact hmono d (h.traced d (Finset.ne_empty_of_mem hm))
    · exact hmono d (h.traced d (Finset.ne_empty_of_mem h1))
    · have hflag : s.flags c ≠ ∅ := by
        rcases (mem_handed_down _ _).mp hm with ⟨hm, _⟩ | ⟨_, h1, _⟩
        · exact Finset.ne_empty_of_mem hm
        · exact Finset.ne_empty_of_mem h1
      exact (hmono c (h.traced c hflag)).parent hp hne

/-! ## The start -/

/-- The marks and the list after the loop over `twos`. -/
theorem painting_start_marks (g : commit_graph commit) {flags : flag_map commit}
    (hclear : ∀ c, flags c = ∅) (one : commit) (twos : List commit) :
    (∀ c m, m ∈ (painting_start g flags one twos).flags c ↔
      (m = .PARENT1 ∧ c = one) ∨ (m = .PARENT2 ∧ c ∈ twos)) ∧
    (∀ c, c ∈ (painting_start g flags one twos).list ↔ c = one ∨ c ∈ twos) ∧
    (painting_start g flags one twos).result = [] := by
  unfold painting_start
  induction twos using List.reverseRecOn with
  | nil =>
    refine ⟨?_, by simp, rfl⟩
    intro c m
    by_cases hc : c = one
    · subst hc
      simp [hclear]
    · simp [hclear, hc]
  | append_singleton twos two ih =>
    obtain ⟨hflags, hlist, hresult⟩ := ih
    rw [List.foldl_append]
    simp only [List.foldl_cons, List.foldl_nil]
    refine ⟨?_, ?_, ?_⟩
    · intro c m
      rw [painting.mem_paint, hflags]
      simp only [Finset.mem_singleton, List.mem_append, List.mem_singleton]
      tauto
    · intro c
      rw [mem_insert_by_date, hlist]
      simp only [List.mem_append, List.mem_singleton]
      tauto
    · simpa using hresult

theorem painting_start_painted (g : commit_graph commit) {flags : flag_map commit}
    (hclear : ∀ c, flags c = ∅) (one : commit) (twos : List commit) :
    Painted g one twos (painting_start g flags one twos) := by
  obtain ⟨hflags, hlist, hresult⟩ := painting_start_marks g hclear one twos
  refine ⟨?_, ?_, ?_, ?_, ?_, ?_, ?_, ?_, ?_, ?_, ?_⟩
  · intro c hm
    obtain rfl : c = one := by simpa [hflags] using hm
    exact ReflTransGen.refl
  · intro c hm
    have hc : c ∈ twos := by simpa [hflags] using hm
    exact ⟨c, hc, ReflTransGen.refl⟩
  · intro c hm
    simp [hflags] at hm
  · simp [hflags]
  · intro two htwo
    simp [hflags, htwo]
  · intro c hc p _ m hm
    rw [hlist] at hc
    rw [mem_handed_down, hflags, hflags, hflags] at hm
    tauto
  · intro c
    simp [hresult, hflags]
  · rw [hresult]
    exact List.nodup_nil
  · intro c hm
    simp [hflags] at hm
  · intro c hc h1
    rw [hlist] at hc
    rw [hflags] at h1
    tauto
  · intro c hne
    obtain ⟨m, hm⟩ := Finset.nonempty_iff_ne_empty.mpr hne
    refine ⟨c, ?_, hne, ReflTransGen.refl⟩
    rw [hflags] at hm
    rw [List.mem_cons]
    tauto

/-! ## The whole painting -/

variable [Fintype commit]

theorem paint_loop_painted (hparse : ∀ c, g.parse_commit c = true) {s : painting commit}
    (h : Painted g one twos s) :
    ∃ t, paint_loop g s = .ok t ∧ Painted g one twos t ∧ interesting t = false := by
  induction hroom : s.room using Nat.strong_induction_on generalizing s with
  | _ room ih =>
    rw [paint_loop]
    by_cases hint : interesting s = true
    · obtain ⟨t, ht, hpainted⟩ := pop_painted hparse h hint
      obtain ⟨u, hu, hend⟩ := ih t.room (hroom ▸ pop_room hint ht) hpainted rfl
      refine ⟨u, ?_, hend⟩
      rw [dif_pos hint]
      split
      · next hpop => simp [ht] at hpop
      · next hpop =>
        rw [ht] at hpop
        exact Except.ok.inj hpop ▸ hu
    · rw [dif_neg hint]
      exact ⟨s, rfl, h, by simpa using hint⟩

/-- The marks start clear, and `one` is not one of `twos`: the result holds
each best common ancestor, and only common ancestors. -/
theorem merge_bases_many_spec (hparse : ∀ c, g.parse_commit c = true) {flags : flag_map commit}
    (hclear : ∀ c, flags c = ∅) (hne : one ∉ twos) :
    (merge_bases_many g flags one twos).1.Nodup ∧
    (∀ c ∈ (merge_bases_many g flags one twos).1, Common g one twos c) ∧
    (∀ c, Best g one twos c → c ∈ (merge_bases_many g flags one twos).1) ∧
    ∀ c, (merge_bases_many g flags one twos).2 c ≠ ∅ →
      Traced g (merge_bases_many g flags one twos).2 (one :: twos) c := by
  obtain ⟨s, hs, h, hstop⟩ := paint_loop_painted hparse (painting_start_painted g hclear one twos)
  have hperm := clean_up_perm g (fun c => mark.STALE ∉ s.flags c) s.result []
  have hall : (g.parse_commit one && twos.all g.parse_commit) = true := by simp [hparse]
  unfold merge_bases_many
  rw [if_neg hne, hall]
  simp only [hs]
  rw [List.append_nil] at hperm
  refine ⟨?_, ?_, ?_, h.traced⟩
  · exact hperm.nodup_iff.mpr (h.nodup.filter _)
  · intro c hc
    have hin := List.mem_of_mem_filter (hperm.mem_iff.mp hc)
    obtain ⟨h1, h2⟩ := h.both c ((h.result c).mp hin)
    exact ⟨h.parent1 c h1, h.parent2 c h2⟩
  · intro c hbest
    obtain ⟨hin, hfresh⟩ := h.best_found hstop hbest
    exact hperm.mem_iff.mpr (List.mem_filter.mpr ⟨hin, by simpa using hfresh⟩)

end git.merge_bases
