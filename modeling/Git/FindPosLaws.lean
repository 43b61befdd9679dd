-- The search for the position of a fragment is a search for the nearest one: the lines that
-- were tried are those of a window around the starting line, and the window grows on both
-- sides in turn.
import Git.FindPos

namespace git.fragment

open git.quote git.fuzzy_match

variable {ctx : context} {img preimage postimage : image}

/-- The positions at which the loop calls `match_fragment`, in their order. -/
def tried (ctx : context) (img preimage postimage : image) (s : cursor img) : List (Nat × Nat) :=
  match match_fragment ctx img preimage postimage s.pos s.try_lno with
  | some _ => [(s.pos, s.try_lno)]
  | none =>
    match _h : again s with
    | none => [(s.pos, s.try_lno)]
    | some t => (s.pos, s.try_lno) :: tried ctx img preimage postimage t
  termination_by s.left
  decreasing_by exact again_left _h

/-- How far a line is from another. -/
def distance (line lno : Nat) : Nat := (lno - line) + (line - lno)

/-- `p` comes before `q`: it is nearer to the line, or as near and later. -/
def Nearer (line p q : Nat) : Prop :=
  distance line p < distance line q ∨ distance line p = distance line q ∧ q ≤ p

/-! ## One turn -/

/-- The window of the lines that were tried, after a step forward (odd) or backward. -/
structure Window (line : Nat) (s : cursor img) : Prop where
  behind : s.backwards_lno ≤ line
  ahead : line ≤ s.forwards_lno
  backwards : s.backwards = offset img s.backwards_lno
  forwards : s.forwards = offset img s.forwards_lno
  pos : s.pos = offset img s.try_lno
  odd : s.i % 2 = 1 → s.try_lno = s.forwards_lno ∧
    (s.forwards_lno - line = line - s.backwards_lno + 1 ∨
      s.backwards_lno = 0 ∧ line - s.backwards_lno < s.forwards_lno - line)
  even : s.i % 2 = 0 → s.try_lno = s.backwards_lno ∧
    (s.forwards_lno - line = line - s.backwards_lno ∨
      s.forwards_lno = img.nr ∧ s.forwards_lno - line ≤ line - s.backwards_lno)

theorem offset_succ (img : image) (lno : Nat) :
    offset img (lno + 1) = offset img lno + line_len img lno := by
  unfold offset line_len
  rw [List.take_add_one, List.map_append, List.sum_append]
  cases img.line[lno]? with
  | none => rfl
  | some l => rfl

theorem start_window (ctx : context) (img preimage : image) (line : Int) :
    Window (start_line ctx img preimage line) (start ctx img preimage line) where
  behind := le_refl _
  ahead := le_refl _
  backwards := rfl
  forwards := rfl
  pos := rfl
  odd h := absurd h Nat.zero_ne_one
  even _ := ⟨rfl, Or.inl ((Nat.sub_self _).trans (Nat.sub_self _).symm)⟩

/-- What `again` does, from an index on either side. -/
theorem again_cases {s t : cursor img} (h : again s = some t) :
    (t.i % 2 = 1 ∧ (s.i % 2 = 0 ∨ s.backwards_lno = 0) ∧ s.forwards_lno ≠ img.nr ∧
      t.forwards_lno = s.forwards_lno + 1 ∧ t.try_lno = t.forwards_lno ∧
      t.forwards = s.forwards + line_len img s.forwards_lno ∧ t.pos = t.forwards ∧
      t.backwards_lno = s.backwards_lno ∧ t.backwards = s.backwards) ∨
    (t.i % 2 = 0 ∧ (s.i % 2 = 1 ∨ s.forwards_lno = img.nr) ∧ s.backwards_lno ≠ 0 ∧
      t.backwards_lno + 1 = s.backwards_lno ∧ t.try_lno = t.backwards_lno ∧
      t.backwards = s.backwards - line_len img t.backwards_lno ∧ t.pos = t.backwards ∧
      t.forwards_lno = s.forwards_lno ∧ t.forwards = s.forwards) := by
  induction s using again.induct with
  | case1 s hend =>
    rw [again, dif_pos hend] at h
    cases h
  | case2 s hend hback hfirst ih =>
    rw [again, dif_neg hend, dif_pos hback, dif_pos hfirst] at h
    rcases ih h with ⟨ht, -, hrest⟩ | ⟨ht, -, hne, -⟩
    · exact Or.inl ⟨ht, Or.inr hfirst, hrest⟩
    · exact absurd hfirst hne
  | case3 s hend hback hfirst =>
    rw [again, dif_neg hend, dif_pos hback, dif_neg hfirst] at h
    cases h
    refine Or.inr ⟨?_, Or.inl hback, hfirst, ?_, rfl, rfl, rfl, rfl, rfl⟩
    · show (s.i + 1) % 2 = 0
      omega
    · exact Nat.succ_pred hfirst
  | case4 s hend hback hlast ih =>
    rw [again, dif_neg hend, dif_neg hback, dif_pos hlast] at h
    rcases ih h with ⟨ht, -, hne, -⟩ | ⟨ht, -, hrest⟩
    · exact absurd hlast hne
    · exact Or.inr ⟨ht, Or.inr hlast, hrest⟩
  | case5 s hend hback hlast =>
    rw [again, dif_neg hend, dif_neg hback, dif_neg hlast] at h
    cases h
    refine Or.inl ⟨?_, Or.inl ?_, hlast, rfl, rfl, rfl, rfl, rfl, rfl⟩
    · show (s.i + 1) % 2 = 1
      omega
    · omega

/-- The loop is left when the window is all of the file. -/
theorem again_none {s : cursor img} (h : again s = none) :
    s.backwards_lno = 0 ∧ s.forwards_lno = img.nr := by
  induction s using again.induct with
  | case1 s hend => exact hend
  | case2 s hend hback hfirst ih =>
    rw [again, dif_neg hend, dif_pos hback, dif_pos hfirst] at h
    exact ih h
  | case3 s hend hback hfirst =>
    rw [again, dif_neg hend, dif_pos hback, dif_neg hfirst] at h
    cases h
  | case4 s hend hback hlast ih =>
    rw [again, dif_neg hend, dif_neg hback, dif_pos hlast] at h
    exact ih h
  | case5 s hend hback hlast =>
    rw [again, dif_neg hend, dif_neg hback, dif_neg hlast] at h
    cases h

theorem Window.next {line : Nat} {s t : cursor img} (h : Window line s) (hnext : again s = some t) :
    Window line t := by
  have hline := h.behind
  have hahead := h.ahead
  have hodd := h.odd
  have heven := h.even
  rcases again_cases hnext with
    ⟨ht, hside, hlast, hforwards, htry, hoff, hpos, hback, hbackoff⟩ |
    ⟨ht, hside, hfirst, hbackwards, htry, hoff, hpos, hforw, hforwoff⟩
  · have hoffset : t.forwards = offset img t.forwards_lno := by
      rw [hoff, hforwards, offset_succ, h.forwards]
    refine ⟨by omega, by omega, by rw [hback, hbackoff, h.backwards], hoffset, ?_, ?_, ?_⟩
    · rw [hpos, htry, hoffset]
    · refine fun _ => ⟨htry, ?_⟩
      rcases Nat.mod_two_eq_zero_or_one s.i with hi | hi
      · have := (heven hi).2
        omega
      · have := (hodd hi).2
        omega
    · omega
  · have hoffset : t.backwards = offset img t.backwards_lno := by
      have hsucc := offset_succ img t.backwards_lno
      rw [hbackwards, ← h.backwards] at hsucc
      omega
    refine ⟨by omega, by omega, hoffset, by rw [hforw, hforwoff, h.forwards], ?_, ?_, ?_⟩
    · rw [hpos, htry, hoffset]
    · omega
    · refine fun _ => ⟨htry, ?_⟩
      rcases Nat.mod_two_eq_zero_or_one s.i with hi | hi
      · have := (heven hi).2
        omega
      · have := (hodd hi).2
        omega

theorem Window.try_le {line : Nat} {s : cursor img} (h : Window line s) : s.try_lno ≤ img.nr := by
  have hinside := s.inside
  have hline := h.behind
  have hahead := h.ahead
  rcases Nat.mod_two_eq_zero_or_one s.i with hi | hi
  · have := h.even hi
    omega
  · have := h.odd hi
    omega

/-- What lies outside the window is not nearer than the line that is tried. -/
theorem Window.nearer {line q : Nat} {s : cursor img} (h : Window line s) (hq : q ≤ img.nr)
    (hout : q < s.backwards_lno ∨ s.forwards_lno < q ∨ q = s.try_lno) :
    Nearer line s.try_lno q := by
  have hline := h.behind
  have hahead := h.ahead
  unfold Nearer distance
  rcases Nat.mod_two_eq_zero_or_one s.i with hi | hi
  · have := h.even hi
    omega
  · have := h.odd hi
    omega

/-! ## The search -/

/-- The fragment is accepted at a line. -/
def Accepted (ctx : context) (img preimage postimage : image) (lno : Nat) (how : accepted) :
    Prop :=
  match_fragment ctx img preimage postimage (offset img lno) lno = some how

/-- The lines of the window other than the last were rejected. -/
def Rejected (ctx : context) (img preimage postimage : image) (s : cursor img) : Prop :=
  ∀ q how, s.backwards_lno ≤ q → q ≤ s.forwards_lno → q ≠ s.try_lno →
    ¬ Accepted ctx img preimage postimage q how

theorem Rejected.next {s t : cursor img} (h : Rejected ctx img preimage postimage s)
    (hnext : again s = some t)
    (hthis : ∀ how, ¬ Accepted ctx img preimage postimage s.try_lno how) :
    Rejected ctx img preimage postimage t := by
  intro q how hlow hhigh hne
  by_cases hq : q = s.try_lno
  · rw [hq]
    exact hthis how
  · rcases again_cases hnext with
      ⟨-, -, -, hforwards, htry, -, -, hback, -⟩ | ⟨-, -, -, hbackwards, htry, -, -, hforw, -⟩
    · exact h q how (by omega) (by omega) hq
    · exact h q how (by omega) (by omega) hq

theorem find_pos_loop_rejected {s : cursor img}
    (h : match_fragment ctx img preimage postimage s.pos s.try_lno = none) :
    find_pos_loop ctx img preimage postimage s =
      (again s).bind (find_pos_loop ctx img preimage postimage) := by
  rw [find_pos_loop, h]
  simp only
  split
  · rename_i hnext
    rw [hnext]
    rfl
  · rename_i t hnext
    rw [hnext]
    rfl

theorem tried_rejected {s : cursor img}
    (h : match_fragment ctx img preimage postimage s.pos s.try_lno = none) :
    tried ctx img preimage postimage s = (s.pos, s.try_lno) ::
      ((again s).map (tried ctx img preimage postimage)).getD [] := by
  rw [tried, h]
  simp only
  split
  · rename_i hnext
    rw [hnext]
    rfl
  · rename_i t hnext
    rw [hnext]
    rfl

/-- Where the loop ends: at the nearest line of those that are accepted, or nowhere. -/
theorem find_pos_loop_nearest {line : Nat} {s : cursor img} (hs : Window line s)
    (h : Rejected ctx img preimage postimage s) :
    match find_pos_loop ctx img preimage postimage s with
    | some (p, how) => p ≤ img.nr ∧ Accepted ctx img preimage postimage p how ∧
        ∀ q ≤ img.nr, ∀ how, Accepted ctx img preimage postimage q how → Nearer line p q
    | none => ∀ q ≤ img.nr, ∀ how, ¬ Accepted ctx img preimage postimage q how := by
  induction s using find_pos_loop.induct ctx img preimage postimage with
  | case1 s how hmatch =>
    rw [find_pos_loop, hmatch]
    refine ⟨hs.try_le, ?_, ?_⟩
    · rw [Accepted, ← hs.pos]
      exact hmatch
    · intro q hq how' haccepted
      apply hs.nearer hq
      by_contra hout
      exact h q how' (by omega) (by omega) (by omega) haccepted
  | case2 s hmatch hnext =>
    rw [find_pos_loop_rejected hmatch, hnext]
    intro q hq how haccepted
    obtain ⟨hfirst, hlast⟩ := again_none hnext
    by_cases hthis : q = s.try_lno
    · rw [Accepted, hthis, ← hs.pos, hmatch] at haccepted
      cases haccepted
    · exact h q how (by omega) (by omega) hthis haccepted
  | case3 s hmatch t hnext ih =>
    rw [find_pos_loop_rejected hmatch, hnext]
    refine ih (hs.next hnext) (h.next hnext ?_)
    intro how haccepted
    rw [Accepted, ← hs.pos, hmatch] at haccepted
    cases haccepted

variable (ctx preimage postimage) in
/-- Each position that is tried comes with its byte offset, and with none before it twice. -/
theorem tried_once {line : Nat} {s : cursor img} (hs : Window line s) :
    ((tried ctx img preimage postimage s).map Prod.snd).Nodup ∧
      ∀ t ∈ tried ctx img preimage postimage s, t.1 = offset img t.2 ∧ t.2 ≤ img.nr ∧
        (t.2 = s.try_lno ∨ t.2 < s.backwards_lno ∨ s.forwards_lno < t.2) := by
  have hself : ∀ t ∈ [(s.pos, s.try_lno)], t.1 = offset img t.2 ∧ t.2 ≤ img.nr ∧
      (t.2 = s.try_lno ∨ t.2 < s.backwards_lno ∨ s.forwards_lno < t.2) := by
    intro t ht
    rw [List.mem_singleton.mp ht]
    exact ⟨hs.pos, hs.try_le, Or.inl rfl⟩
  induction s using find_pos_loop.induct ctx img preimage postimage with
  | case1 s how hmatch =>
    rw [tried, hmatch]
    exact ⟨List.nodup_singleton _, hself⟩
  | case2 s hmatch hnext =>
    rw [tried_rejected hmatch, hnext]
    exact ⟨List.nodup_singleton _, hself⟩
  | case3 s hmatch t hnext ih =>
    have ht := hs.next hnext
    rw [tried_rejected hmatch, hnext]
    obtain ⟨hnodup, hall⟩ := ih ht (by
      intro u hu
      rw [List.mem_singleton.mp hu]
      exact ⟨ht.pos, ht.try_le, Or.inl rfl⟩)
    -- what is tried from here on lies outside the window
    have hout : ∀ u ∈ tried ctx img preimage postimage t,
        u.2 < s.backwards_lno ∨ s.forwards_lno < u.2 := by
      intro u hu
      have hu := (hall u hu).2.2
      rcases again_cases hnext with
        ⟨-, -, -, hforwards, htry, -, -, hback, -⟩ | ⟨-, -, -, hbackwards, htry, -, -, hforw, -⟩
      · omega
      · omega
    have hin : s.backwards_lno ≤ s.try_lno ∧ s.try_lno ≤ s.forwards_lno := by
      have hline := hs.behind
      have hahead := hs.ahead
      rcases Nat.mod_two_eq_zero_or_one s.i with hi | hi
      · have := hs.even hi
        omega
      · have := hs.odd hi
        omega
    refine ⟨List.nodup_cons.mpr ⟨?_, hnodup⟩, ?_⟩
    · intro hmem
      obtain ⟨u, hu, heq⟩ := List.mem_map.mp hmem
      have := hout u hu
      omega
    · intro u hu
      rcases List.mem_cons.mp hu with rfl | hu
      · exact hself _ (List.mem_singleton_self _)
      · exact ⟨(hall u hu).1, (hall u hu).2.1, Or.inr (hout u hu)⟩

variable (ctx preimage postimage) in
theorem start_rejected (line : Int) :
    Rejected ctx img preimage postimage (start ctx img preimage line) := by
  intro q how hlow hhigh hne
  exact absurd (le_antisymm hhigh hlow) hne

/-- The search tries each line at most once, at its offset, and ends with the nearest one that
is accepted, the later of two; it ends with none only where no line is. -/
theorem find_pos_is_nearest_first (ctx : context) (img preimage postimage : image) (line : Int) :
    let at_line := start_line ctx img preimage line
    let tries := tried ctx img preimage postimage (start ctx img preimage line)
    ((tries.map Prod.snd).Nodup ∧ ∀ t ∈ tries, t.2 ≤ img.nr ∧ t.1 = offset img t.2) ∧
    (∀ p how, find_pos ctx img preimage postimage line = some (p, how) →
      p ≤ img.nr ∧ Accepted ctx img preimage postimage p how ∧
        ∀ q ≤ img.nr, ∀ how, Accepted ctx img preimage postimage q how → Nearer at_line p q) ∧
    (find_pos ctx img preimage postimage line = none ↔
      ∀ q ≤ img.nr, ∀ how, ¬ Accepted ctx img preimage postimage q how) := by
  intro at_line tries
  have hstart := start_window ctx img preimage line
  obtain ⟨hnodup, hall⟩ := tried_once ctx preimage postimage hstart
  have hfound := find_pos_loop_nearest hstart (start_rejected ctx preimage postimage line)
  rw [← find_pos] at hfound
  refine ⟨⟨hnodup, fun t ht => ⟨(hall t ht).2.1, (hall t ht).1⟩⟩, ?_, ?_⟩
  · intro p how hpos
    rw [hpos] at hfound
    exact hfound
  · constructor
    · intro hnone
      rw [hnone] at hfound
      exact hfound
    · intro hno
      cases hpos : find_pos ctx img preimage postimage line with
      | none => rfl
      | some found =>
        rw [hpos] at hfound
        exact absurd hfound.2.1 (hno found.1 hfound.1 found.2)

end git.fragment
