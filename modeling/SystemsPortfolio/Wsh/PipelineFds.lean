/-
SystemsPortfolio/Wsh/PipelineFds.lean

The descriptors of a pipeline.

`run_pipeline` makes a pipe between every two stages, forks a child for each stage, and
closes its own ends.  A child puts the ends it needs onto its standard input and output
and closes all the others.  A reader sees the end of its input only when no process has
the write end of its pipe any more, so a descriptor that stays open anywhere would make
the pipeline hang.

`pipeline_wired_iff` says when the wiring is right: the shell itself must have its standard
input and output open, since otherwise the first pipe gets their numbers and the children
close what they have just set up.  With it right, every end is in exactly one process
(`pipeline_ends_held_once`).  `pipeline_failure_stays` is about the way out when a pipe
cannot be made: the ends of the pipes made before stay open in the shell.

A call of `pipe` needs two free descriptors and the consent of the system, which may have no
pipe left to give; `World` has the answers of the system, here as in `runPipeline`.
-/
import Mathlib.Data.List.GetD
import SystemsPortfolio.Lib.Descriptors
import SystemsPortfolio.Wsh.Dispatch

namespace SystemsPortfolio.Wsh

open Descriptors

/-- What a descriptor stands for: a file `φ` that the shell has had open before, or an end of
one of the pipes. -/
inductive PipeFile (φ : Type)
  | kept (f : φ)
  | readEnd (i : Nat)
  | writeEnd (i : Nat)

variable {φ : Type} {w : World} {limit n i j k : Nat} {t t' : Table (PipeFile φ)}
  {pipes : List (Nat × Nat)}

/-! ### `run_pipeline` -/

/-- `pipe(pipes[i])`: the two ends, or an error with nothing left open. -/
def pipe (w : World) (limit : Nat) (t : Table (PipeFile φ)) (i : Nat) :
    Option ((Nat × Nat) × Table (PipeFile φ)) :=
  if w.pipe i then
    match lowest limit t with
    | none => none
    | some r =>
        match lowest limit (Function.update t r (some (.readEnd i))) with
        | none => none
        | some e =>
            some ((r, e), Function.update (Function.update t r (some (.readEnd i))) e (some (.writeEnd i)))
  else none

/-- The loop that makes `n` pipes from number `i` on: the ends of all of them unless one fails, and
the table of the shell. -/
def makePipes (w : World) (limit : Nat) : Nat → Nat → Table (PipeFile φ) → List (Nat × Nat) →
    Option (List (Nat × Nat)) × Table (PipeFile φ)
  | 0, _, t, pipes => (some pipes, t)
  | n + 1, i, t, pipes =>
      match pipe w limit t i with
      | none => (none, t)
      | some (p, t') => makePipes w limit n (i + 1) t' (pipes ++ [p])

/-- The descriptors that are closed at the end, by the children and by the shell. -/
def pipeFds (pipes : List (Nat × Nat)) : List Nat := pipes.flatMap fun p => [p.1, p.2]

/-- The child of stage `i` puts the pipe before it onto its standard input. -/
def wireIn (pipes : List (Nat × Nat)) (i : Nat) (t : Table (PipeFile φ)) : Option (Table (PipeFile φ)) :=
  if 0 < i then dup2 t (pipes.getD (i - 1) (0, 0)).1 0 else some t

/-- It puts the pipe after it onto its standard output. -/
def wireOut (pipes : List (Nat × Nat)) (nseg i : Nat) (t : Table (PipeFile φ)) :
    Option (Table (PipeFile φ)) :=
  if i < nseg - 1 then dup2 t (pipes.getD i (0, 0)).2 1 else some t

/-- The child of stage `i`, up to the program it runs; `none` if `dup2` fails. -/
def stageTable (pipes : List (Nat × Nat)) (nseg i : Nat) (t : Table (PipeFile φ)) :
    Option (Table (PipeFile φ)) :=
  ((wireIn pipes i t).bind (wireOut pipes nseg i)).map fun t' => closeAll t' (pipeFds pipes)

/-- The child of stage `i`, if it could be forked. -/
def childTable (w : World) (pipes : List (Nat × Nat)) (nseg i : Nat) (t : Table (PipeFile φ)) :
    Option (Table (PipeFile φ)) :=
  if w.child i = .noFork then none else stageTable pipes nseg i t

/-- `run_pipeline` as far as descriptors go: the tables of the children, unless a pipe cannot be
made, and the table of the shell afterwards. -/
def runPipelineFds (w : World) (limit nseg : Nat) (t : Table (PipeFile φ)) :
    Option (Nat → Option (Table (PipeFile φ))) × Table (PipeFile φ) :=
  match makePipes w limit (nseg - 1) 0 t [] with
  | (none, t') => (none, t')
  | (some pipes, t') => (some fun i => childTable w pipes nseg i t', closeAll t' (pipeFds pipes))

/-! ### Making the pipes -/

/-- The pipes made so far, over the table `t` the shell had before. -/
structure Made (t : Table (PipeFile φ)) (pipes : List (Nat × Nat)) (t' : Table (PipeFile φ)) :
    Prop where
  reads : ∀ i (hi : i < pipes.length), t' pipes[i].1 = some (.readEnd i)
  writes : ∀ i (hi : i < pipes.length), t' pipes[i].2 = some (.writeEnd i)
  free : ∀ fd ∈ pipeFds pipes, t fd = none
  rest : ∀ fd, fd ∉ pipeFds pipes → t' fd = t fd

theorem mem_pipeFds {fd : Nat} : fd ∈ pipeFds pipes ↔ ∃ p ∈ pipes, fd = p.1 ∨ fd = p.2 := by
  simp [pipeFds]

theorem made_nil : Made t [] t where
  reads i hi := by cases hi
  writes i hi := by cases hi
  free fd h := by cases h
  rest fd _ := rfl

theorem pipe_eq_some {p : Nat × Nat} {t'' : Table (PipeFile φ)}
    (h : pipe w limit t' i = some (p, t'')) :
    t' p.1 = none ∧ t' p.2 = none ∧ p.1 ≠ p.2 ∧ (∀ k < p.1, t' k ≠ none) ∧
      t'' = Function.update (Function.update t' p.1 (some (.readEnd i))) p.2 (some (.writeEnd i)) := by
  rw [pipe] at h
  split_ifs at h
  rcases hr : lowest limit t' with - | r
  · rw [hr] at h
    cases h
  · rw [hr] at h
    dsimp only at h
    rcases hw : lowest limit (Function.update t' r (some (.readEnd i))) with - | e
    · rw [hw] at h
      cases h
    · rw [hw] at h
      cases h
      obtain ⟨-, hrfree, hrlow⟩ := lowest_eq_some.mp hr
      obtain ⟨-, hwfree, -⟩ := lowest_eq_some.mp hw
      have hne : e ≠ r := by
        rintro rfl
        rw [Function.update_self] at hwfree
        cases hwfree
      rw [Function.update_of_ne hne] at hwfree
      exact ⟨hrfree, hwfree, hne.symm, hrlow, rfl⟩

/-- Another pipe. -/
theorem Made.snoc {p : Nat × Nat} {t'' : Table (PipeFile φ)} (h : Made t pipes t')
    (hp : pipe w limit t' pipes.length = some (p, t'')) : Made t (pipes ++ [p]) t'' := by
  obtain ⟨hr, hw, hne, -, rfl⟩ := pipe_eq_some hp
  have hold {fd : Nat} {f : PipeFile φ} (hfd : t' fd = some f) :
      Function.update (Function.update t' p.1 (some (.readEnd pipes.length))) p.2
        (some (.writeEnd pipes.length)) fd = some f := by
    rw [Function.update_of_ne, Function.update_of_ne, hfd]
    · rintro rfl
      rw [hr] at hfd
      cases hfd
    · rintro rfl
      rw [hw] at hfd
      cases hfd
  have hfree {fd : Nat} (hfd : t' fd = none) : t fd = none := by
    by_cases hmem : fd ∈ pipeFds pipes
    · exact h.free fd hmem
    · rw [← h.rest fd hmem, hfd]
  refine ⟨fun i hi => ?_, fun i hi => ?_, fun fd hfd => ?_, fun fd hfd => ?_⟩
  · rw [List.length_append, List.length_singleton] at hi
    rcases Nat.lt_succ_iff_lt_or_eq.mp hi with hlt | rfl
    · rw [List.getElem_append_left hlt]
      exact hold (h.reads i hlt)
    · rw [List.getElem_append_right (Nat.le_refl _)]
      simp only [Nat.sub_self, List.getElem_cons_zero]
      rw [Function.update_of_ne hne, Function.update_self]
  · rw [List.length_append, List.length_singleton] at hi
    rcases Nat.lt_succ_iff_lt_or_eq.mp hi with hlt | rfl
    · rw [List.getElem_append_left hlt]
      exact hold (h.writes i hlt)
    · rw [List.getElem_append_right (Nat.le_refl _)]
      simp only [Nat.sub_self, List.getElem_cons_zero]
      rw [Function.update_self]
  · rw [pipeFds, List.flatMap_append, List.mem_append] at hfd
    rcases hfd with hfd | hfd
    · exact h.free fd hfd
    · have hcases : fd = p.1 ∨ fd = p.2 := by simpa using hfd
      rcases hcases with rfl | rfl
      · exact hfree hr
      · exact hfree hw
  · have hsplit : fd ∉ pipeFds pipes ∧ fd ≠ p.1 ∧ fd ≠ p.2 := by
      rw [pipeFds, List.flatMap_append, List.mem_append] at hfd
      simpa [pipeFds, not_or] using hfd
    rw [Function.update_of_ne hsplit.2.2, Function.update_of_ne hsplit.2.1, h.rest fd hsplit.1]

/-- What the loop leaves, whether or not it fails. -/
theorem makePipes_spec (h : Made t pipes t') (hlen : pipes.length = i) :
    (∀ ps t'', makePipes w limit n i t' pipes = (some ps, t'') → Made t ps t'' ∧ ps.length = i + n) ∧
    (∀ t'', makePipes w limit n i t' pipes = (none, t'') →
      ∃ ps, Made t ps t'' ∧ ps.length < i + n ∧ pipe w limit t'' ps.length = none) := by
  -- on the pipes that are left to make; `Made` has the ends of those made so far
  induction n generalizing i t' pipes with
  | zero =>
      refine ⟨fun ps t'' e => ?_, fun t'' e => ?_⟩
      · cases e
        exact ⟨h, hlen⟩
      · cases e
  | succ n ih =>
      rcases hp : pipe w limit t' i with - | ⟨p, t₁⟩
      · have e₀ : makePipes w limit (n + 1) i t' pipes = (none, t') := by rw [makePipes, hp]
        refine ⟨fun ps t'' e => ?_, fun t'' e => ?_⟩
        · rw [e₀] at e
          cases e
        · rw [e₀] at e
          cases e
          exact ⟨pipes, h, by omega, hlen ▸ hp⟩
      · have e₀ : makePipes w limit (n + 1) i t' pipes =
            makePipes w limit n (i + 1) t₁ (pipes ++ [p]) := by
          rw [makePipes, hp]
        have hmade : Made t (pipes ++ [p]) t₁ := h.snoc (hlen ▸ hp)
        have hlen₁ : (pipes ++ [p]).length = i + 1 := by
          rw [List.length_append, List.length_singleton, hlen]
        obtain ⟨hok, hfail⟩ := ih hmade hlen₁
        rw [e₀]
        refine ⟨fun ps t'' e => ?_, fun t'' e => ?_⟩
        · obtain ⟨h₁, h₂⟩ := hok ps t'' e
          exact ⟨h₁, by omega⟩
        · obtain ⟨ps, h₁, h₂, h₃⟩ := hfail t'' e
          exact ⟨ps, h₁, by omega, h₃⟩

/-- Closing all ends gives back the table the shell had. -/
theorem Made.closeAll_eq (h : Made t pipes t') : closeAll t' (pipeFds pipes) = t := by
  funext fd
  rw [closeAll_apply]
  split_ifs with hfd
  · exact (h.free fd hfd).symm
  · exact h.rest fd hfd

/-! ### The children -/

/-- The standard input of stage `i`. -/
def stageIn (t : Table (PipeFile φ)) (i : Nat) : Option (PipeFile φ) :=
  if 0 < i then some (.readEnd (i - 1)) else t 0

/-- The standard output of stage `i` of `nseg`. -/
def stageOut (t : Table (PipeFile φ)) (nseg i : Nat) : Option (PipeFile φ) :=
  if i < nseg - 1 then some (.writeEnd i) else t 1

/-- A child that has its ends on its standard input and output and everything else as the shell
had it before. -/
def wired (t : Table (PipeFile φ)) (nseg i : Nat) : Table (PipeFile φ) :=
  Function.update (Function.update t 0 (stageIn t i)) 1 (stageOut t nseg i)

/-- What a wired child has open: its two standard descriptors, and those of the shell. -/
theorem wired_eq_some {nseg fd : Nat} {f : PipeFile φ} :
    wired t nseg i fd = some f ↔ fd = 1 ∧ stageOut t nseg i = some f ∨
      fd = 0 ∧ stageIn t i = some f ∨ fd ≠ 0 ∧ fd ≠ 1 ∧ t fd = some f := by
  rw [wired]
  rcases eq_or_ne fd 1 with rfl | hfd₁
  · rw [Function.update_self]
    simp
  · rw [Function.update_of_ne hfd₁]
    rcases eq_or_ne fd 0 with rfl | hfd₀
    · rw [Function.update_self]
      simp
    · rw [Function.update_of_ne hfd₀]
      simp [hfd₀, hfd₁]

theorem Made.wireIn_eq (h : Made t pipes t') (h₀ : t 0 ≠ none) (hi : i ≤ pipes.length) :
    wireIn pipes i t' = some (Function.update t' 0 (stageIn t i)) := by
  rw [wireIn, stageIn]
  split_ifs with hpos
  · have hlt : i - 1 < pipes.length := by omega
    rw [List.getD_eq_getElem _ _ hlt, dup2_of_open (h.reads (i - 1) hlt)]
  · rw [← h.rest 0 fun hmem => h₀ (h.free 0 hmem), Function.update_eq_self]

theorem Made.wireOut_eq {nseg : Nat} {f : Option (PipeFile φ)} (h : Made t pipes t')
    (hlen : pipes.length = nseg - 1) (h₀ : t 0 ≠ none) (h₁ : t 1 ≠ none) :
    wireOut pipes nseg i (Function.update t' 0 f) =
      some (Function.update (Function.update t' 0 f) 1 (stageOut t nseg i)) := by
  rw [wireOut, stageOut]
  split_ifs with hi
  · have hlt : i < pipes.length := by omega
    have hmem : pipes[i].2 ∈ pipeFds pipes :=
      mem_pipeFds.mpr ⟨pipes[i], List.getElem_mem hlt, Or.inr rfl⟩
    rw [List.getD_eq_getElem _ _ hlt]
    refine dup2_of_open ?_
    rw [Function.update_of_ne, h.writes i hlt]
    intro e
    exact h₀ (h.free 0 (e ▸ hmem))
  · have hone : Function.update t' 0 f 1 = t 1 := by
      rw [Function.update_of_ne (by decide), h.rest 1 fun hmem => h₁ (h.free 1 hmem)]
    rw [← hone, Function.update_eq_self]

/-- The wiring when the pipes have no standard descriptors. -/
theorem Made.stageTable_eq {nseg : Nat} (h : Made t pipes t') (hlen : pipes.length = nseg - 1)
    (h₀ : t 0 ≠ none) (h₁ : t 1 ≠ none) (hi : i < nseg) :
    stageTable pipes nseg i t' = some (wired t nseg i) := by
  have hno₀ : 0 ∉ pipeFds pipes := fun hmem => h₀ (h.free 0 hmem)
  have hno₁ : 1 ∉ pipeFds pipes := fun hmem => h₁ (h.free 1 hmem)
  rw [stageTable, h.wireIn_eq h₀ (by omega), Option.bind_some, h.wireOut_eq hlen h₀ h₁, Option.map_some]
  refine congrArg some ?_
  funext fd
  rw [closeAll_apply, wired]
  split_ifs with hfd
  · -- an end that is closed is none of the standard descriptors
    rw [Function.update_of_ne, Function.update_of_ne, h.free fd hfd]
    · rintro rfl
      exact hno₀ hfd
    · rintro rfl
      exact hno₁ hfd
  · rcases eq_or_ne fd 1 with rfl | hfd₁
    · rw [Function.update_self, Function.update_self]
    · rw [Function.update_of_ne hfd₁, Function.update_of_ne hfd₁]
      rcases eq_or_ne fd 0 with rfl | hfd₀
      · rw [Function.update_self, Function.update_self]
      · rw [Function.update_of_ne hfd₀, Function.update_of_ne hfd₀, h.rest fd hfd]

/-! ### The pipeline -/

/-- A shell with its standard descriptors. -/
def standardFds : Table (PipeFile Nat) := fun fd => if fd < 3 then some (.kept fd) else none

theorem makePipes_isPrefix {ps : List (Nat × Nat)} {t'' : Table (PipeFile φ)}
    (h : makePipes w limit n i t' pipes = (some ps, t'')) : pipes <+: ps := by
  induction n generalizing i t' pipes with
  | zero =>
      cases h
      exact List.prefix_refl _
  | succ n ih =>
      rw [makePipes] at h
      rcases hp : pipe w limit t' i with - | ⟨p, t₁⟩
      · rw [hp] at h
        cases h
      · rw [hp] at h
        exact (List.prefix_append pipes [p]).trans (ih h)

/-- The first pipe has the lowest free descriptor as its read end. -/
theorem makePipes_head {ps : List (Nat × Nat)} {t'' : Table (PipeFile φ)}
    (h : makePipes w limit (n + 1) 0 t [] = (some ps, t'')) :
    ∃ p rest, ps = p :: rest ∧ t p.1 = none ∧ ∀ k < p.1, t k ≠ none := by
  rw [makePipes] at h
  rcases hp : pipe w limit t 0 with - | ⟨p, t₁⟩
  · rw [hp] at h
    cases h
  · rw [hp] at h
    obtain ⟨rest, hrest⟩ := makePipes_isPrefix h
    obtain ⟨hfree, -, -, hlow, -⟩ := pipe_eq_some hp
    exact ⟨p, rest, hrest.symm, hfree, hlow⟩

theorem runPipelineFds_eq_some {nseg : Nat} {children : Nat → Option (Table (PipeFile φ))}
    {t'' : Table (PipeFile φ)} (h : runPipelineFds w limit nseg t = (some children, t'')) :
    ∃ pipes t', makePipes w limit (nseg - 1) 0 t [] = (some pipes, t') ∧ Made t pipes t' ∧
      pipes.length = nseg - 1 ∧ t'' = t ∧ children = fun i => childTable w pipes nseg i t' := by
  rw [runPipelineFds] at h
  rcases hm : makePipes w limit (nseg - 1) 0 t [] with ⟨- | pipes, t'⟩
  · rw [hm] at h
    cases h
  · rw [hm] at h
    obtain ⟨hmade, hlen⟩ := (makePipes_spec made_nil rfl).1 pipes t' hm
    cases h
    rw [List.length_nil, Nat.zero_add] at hlen
    exact ⟨pipes, t', rfl, hmade, hlen, hmade.closeAll_eq, rfl⟩

/-- A descriptor of the shell that became an end is closed in every child, whatever was put there. -/
theorem stageTable_closed {nseg fd : Nat} {tb : Table (PipeFile φ)} (hfd : fd ∈ pipeFds pipes)
    (h : stageTable pipes nseg i t' = some tb) : tb fd = none := by
  rw [stageTable, Option.map_eq_some_iff] at h
  obtain ⟨t₁, -, rfl⟩ := h
  rw [closeAll_apply, if_pos hfd]

/-- When all pipes can be made the shell gets its own table back.  If all children can be forked,
they have the pipes on their standard input and output, and nothing else changed, exactly if the
shell has both open. -/
theorem pipeline_wired_iff {nseg : Nat} {children : Nat → Option (Table (PipeFile φ))}
    {t'' : Table (PipeFile φ)} (hseg : 2 ≤ nseg) (hfork : ∀ i < nseg, w.child i ≠ .noFork)
    (h : runPipelineFds w limit nseg t = (some children, t'')) :
    t'' = t ∧
      ((∀ i < nseg, children i = some (wired t nseg i)) ↔ t 0 ≠ none ∧ t 1 ≠ none) := by
  obtain ⟨pipes, t', hm, hmade, hlen, ht, rfl⟩ := runPipelineFds_eq_some h
  have hstage (i : Nat) (hi : i < nseg) :
      childTable w pipes nseg i t' = stageTable pipes nseg i t' := if_neg (hfork i hi)
  refine ⟨ht, fun hw => ?_, fun ⟨h₀, h₁⟩ i hi => (hstage i hi).trans
    (hmade.stageTable_eq hlen h₀ h₁ hi)⟩
  obtain ⟨m, hm'⟩ : ∃ m, nseg - 1 = m + 1 := ⟨nseg - 2, by omega⟩
  rw [hm'] at hm
  obtain ⟨p, rest, rfl, hfree, hlow⟩ := makePipes_head hm
  have hp : p.1 ∈ pipeFds (p :: rest) := mem_pipeFds.mpr ⟨p, List.mem_cons_self, Or.inl rfl⟩
  have h₀ : t 0 ≠ none := by
    -- otherwise the first read end is the standard input, and the second stage closes it
    intro e
    have hp₀ : p.1 = 0 := by
      by_contra hne
      exact hlow 0 (Nat.pos_of_ne_zero hne) e
    have hnone := stageTable_closed (hp₀ ▸ hp) ((hstage 1 hseg).symm.trans (hw 1 hseg))
    rw [wired, Function.update_of_ne (by decide), Function.update_self, stageIn,
      if_pos Nat.one_pos] at hnone
    cases hnone
  refine ⟨h₀, fun e => ?_⟩
  -- otherwise it is the standard output, and the first stage closes it
  have hp₁ : p.1 = 1 := by
    rcases Nat.lt_trichotomy p.1 1 with hlt | heq | hgt
    · exact absurd (Nat.lt_one_iff.mp hlt ▸ hfree) h₀
    · exact heq
    · exact absurd e (hlow 1 hgt)
  have hnone := stageTable_closed (hp₁ ▸ hp) ((hstage 0 (by omega)).symm.trans (hw 0 (by omega)))
  rw [wired, Function.update_self, stageOut, if_pos (by omega)] at hnone
  cases hnone

/-- Eight descriptors are enough for the pipes of three stages. -/
theorem exists_children_standardFds : ∃ children t'',
    runPipelineFds bareWorld 8 3 standardFds = (some children, t'') := by
  have hsome : (runPipelineFds bareWorld 8 3 standardFds).1.isSome = true := by decide
  obtain ⟨children, hc⟩ := Option.isSome_iff_exists.mp hsome
  exact ⟨children, _, Prod.ext hc rfl⟩

theorem pipeline_wired_standardFds : ∃ children,
    runPipelineFds bareWorld 8 3 standardFds = (some children, standardFds) ∧
      ∀ i < 3, children i = some (wired standardFds 3 i) := by
  obtain ⟨children, t'', h⟩ := exists_children_standardFds
  obtain ⟨rfl, hiff⟩ := pipeline_wired_iff (by decide) (fun _ _ => Child.noConfusion) h
  exact ⟨children, h, hiff.mpr ⟨Option.some_ne_none _, Option.some_ne_none _⟩⟩

/-- If the shell has its standard input and output open and no end of a pipe, and all pipes can be
made, then each end of each pipe is in one place only: the write end is the standard output of the
stage before the pipe, the read end the standard input of the one behind it.  So a reader sees the
end of its input when the stage before it has ended. -/
theorem pipeline_ends_held_once {nseg k fd : Nat} {children : Nat → Option (Table (PipeFile φ))}
    {tb t'' : Table (PipeFile φ)} (hkept : ∀ fd f, t fd = some f → ∃ x, f = .kept x)
    (h₀ : t 0 ≠ none) (h₁ : t 1 ≠ none)
    (h : runPipelineFds w limit nseg t = (some children, t'')) (hi : i < nseg)
    (hc : children i = some tb) :
    t'' fd ≠ some (.writeEnd k) ∧ t'' fd ≠ some (.readEnd k) ∧
      (tb fd = some (.writeEnd k) ↔ fd = 1 ∧ i = k ∧ k + 1 < nseg) ∧
      (tb fd = some (.readEnd k) ↔ fd = 0 ∧ i = k + 1) := by
  obtain ⟨pipes, t', hm, hmade, hlen, rfl, rfl⟩ := runPipelineFds_eq_some h
  have htb : tb = wired t'' nseg i := by
    have hc' : childTable w pipes nseg i t' = some tb := hc
    rw [childTable] at hc'
    split_ifs at hc'
    exact Option.some.inj (hc'.symm.trans (hmade.stageTable_eq hlen h₀ h₁ hi))
  subst htb
  have hnw (fd : Nat) : t'' fd ≠ some (.writeEnd k) := by
    intro e
    obtain ⟨x, hx⟩ := hkept fd _ e
    cases hx
  have hnr (fd : Nat) : t'' fd ≠ some (.readEnd k) := by
    intro e
    obtain ⟨x, hx⟩ := hkept fd _ e
    cases hx
  -- besides the two standard descriptors a child has what the shell has, which are no ends
  refine ⟨hnw fd, hnr fd, ?_, ?_⟩
  · rw [wired_eq_some, stageOut, stageIn]
    split_ifs <;> simp only [Option.some.injEq, PipeFile.writeEnd.injEq, reduceCtorEq, hnw, and_false,
      or_false, false_iff] <;> omega
  · rw [wired_eq_some, stageOut, stageIn]
    split_ifs <;> simp only [Option.some.injEq, PipeFile.readEnd.injEq, reduceCtorEq, hnr, and_false,
      or_false, false_or, false_iff] <;> omega

theorem pipeline_ends_standardFds : ∃ children tb t'',
    runPipelineFds bareWorld 8 3 standardFds = (some children, t'') ∧ children 1 = some tb ∧
      tb 1 = some (.writeEnd 1) ∧ tb 0 = some (.readEnd 0) := by
  obtain ⟨children, t'', h⟩ := exists_children_standardFds
  have hkept : ∀ fd f, standardFds fd = some f → ∃ x, f = .kept x := by
    intro fd f hf
    rw [standardFds] at hf
    split_ifs at hf
    cases hf
    exact ⟨fd, rfl⟩
  obtain ⟨pipes, t', -, hmade, hlen, -, rfl⟩ := runPipelineFds_eq_some h
  have hc : childTable bareWorld pipes 3 1 t' = some (wired standardFds 3 1) :=
    (if_neg Child.noConfusion).trans (hmade.stageTable_eq hlen (Option.some_ne_none _)
      (Option.some_ne_none _) (by decide))
  have hends (fd k : Nat) := @pipeline_ends_held_once _ bareWorld 8 1 standardFds 3 k fd _ _ _ hkept
    (Option.some_ne_none _) (Option.some_ne_none _) h (by decide) hc
  exact ⟨_, _, t'', h, hc, (hends 1 1).2.2.1.mpr (by decide), (hends 0 0).2.2.2.mpr (by decide)⟩

/-! ### When a pipe cannot be made -/

/-- If the table has no room for a pipe, then not for one of another number either. -/
theorem pipe_eq_none (h : pipe w limit t' i = none) (hw : w.pipe i = true) (w' : World) (j : Nat) :
    pipe w' limit t' j = none := by
  rw [pipe, if_pos hw] at h
  rw [pipe]
  split_ifs with hw'
  · rcases hr : lowest limit t' with - | r
    · rfl
    · rw [hr] at h
      dsimp only at h ⊢
      rcases he : lowest limit (Function.update t' r (some (.readEnd i))) with - | e
      · have he' : lowest limit (Function.update t' r (some (.readEnd j))) = none := by
          rw [lowest_eq_none] at he ⊢
          intro fd hfd
          rcases eq_or_ne fd r with rfl | hne
          · rw [Function.update_self]
            exact Option.some_ne_none _
          · have := he fd hfd
            rwa [Function.update_of_ne hne] at this ⊢
        rw [he']
      · rw [he] at h
        cases h
  · rfl

/-- When a pipe cannot be made, the ends of those made before stay open in the shell, in descriptors
that were free.  If the system would have given the pipe, so that it failed for lack of descriptors,
no pipeline of two or more stages can be run from then on, whatever the system answers. -/
theorem pipeline_failure_stays {nseg : Nat} {t'' : Table (PipeFile φ)}
    (h : runPipelineFds w limit nseg t = (none, t'')) :
    ∃ pipes, Made t pipes t'' ∧ pipes.length + 1 < nseg ∧
      (w.pipe pipes.length = true →
        ∀ w' nseg', 2 ≤ nseg' → runPipelineFds w' limit nseg' t'' = (none, t'')) := by
  rw [runPipelineFds] at h
  rcases hm : makePipes w limit (nseg - 1) 0 t [] with ⟨- | ps, t'⟩
  · rw [hm] at h
    cases h
    obtain ⟨pipes, hmade, hlen, hnone⟩ := (makePipes_spec made_nil rfl).2 _ hm
    rw [List.length_nil, Nat.zero_add] at hlen
    refine ⟨pipes, hmade, by omega, fun hw w' nseg' hseg => ?_⟩
    obtain ⟨m, hm'⟩ : ∃ m, nseg' - 1 = m + 1 := ⟨nseg' - 2, by omega⟩
    rw [runPipelineFds, hm', makePipes, pipe_eq_none hnone hw]
  · rw [hm] at h
    cases h

/-- With six descriptors there is room for one pipe of the two. -/
theorem pipeline_failure_standardFds : ∃ t'',
    runPipelineFds bareWorld 6 3 standardFds = (none, t'') ∧ t'' 3 = some (.readEnd 0) ∧
      ∀ w' nseg', 2 ≤ nseg' → runPipelineFds w' 6 nseg' t'' = (none, t'') := by
  have hnone : (runPipelineFds bareWorld 6 3 standardFds).1 = none := by decide
  have h : runPipelineFds bareWorld 6 3 standardFds =
      (none, (runPipelineFds bareWorld 6 3 standardFds).2) := by
    rw [← hnone]
  obtain ⟨pipes, -, -, hstays⟩ := pipeline_failure_stays h
  exact ⟨_, h, rfl, hstays rfl⟩

/-! ### The two halves of `run_pipeline` -/

/-- What a shell with the table `t` is told by its calls of `pipe`: the answer of the system, as
long as there are descriptors for the ends. -/
def World.withFds (w : World) (limit : Nat) (t : Table (PipeFile φ)) : World :=
  { w with pipe := fun i => (makePipes w limit (i + 1) 0 t []).1.isSome }

/-- The loop that makes the pipes gets further with fewer of them to make. -/
theorem makePipes_isSome_of_le {m : Nat} (hle : m ≤ n)
    (h : (makePipes w limit n i t' pipes).1.isSome = true) :
    (makePipes w limit m i t' pipes).1.isSome = true := by
  induction m generalizing n i t' pipes with
  | zero => rfl
  | succ m ih =>
      obtain ⟨n, rfl⟩ : ∃ n', n = n' + 1 := ⟨n - 1, by omega⟩
      rw [makePipes] at h ⊢
      rcases hp : pipe w limit t' i with - | ⟨p, t₁⟩
      · rw [hp] at h
        cases h
      · rw [hp] at h
        exact ih (by omega) h

theorem all_withFds_pipe :
    (List.range n).all (w.withFds limit t).pipe = (makePipes w limit n 0 t []).1.isSome := by
  rw [Bool.eq_iff_iff, List.all_eq_true]
  refine ⟨fun h => ?_, fun h i hi => makePipes_isSome_of_le (List.mem_range.mp hi) h⟩
  rcases n with - | n
  · rfl
  · exact h n (List.mem_range.mpr (Nat.lt_succ_self n))

/-- The return code and the output of `run_pipeline` are those of a failed `pipe` exactly if the
table has no children. -/
theorem runPipeline_withFds (s : Shell) (segarv : List (List Str)) :
    runPipeline (w.withFds limit t) s segarv =
      if (runPipelineFds w limit segarv.length t).1.isSome then
        runPipeline { w with pipe := fun _ => true } s segarv
      else ({ s with rc := exitFailure }, [.perror "pipe"]) := by
  have hfds : (runPipelineFds w limit segarv.length t).1.isSome =
      (makePipes w limit (segarv.length - 1) 0 t []).1.isSome := by
    rw [runPipelineFds]
    rcases makePipes w limit (segarv.length - 1) 0 t [] with ⟨- | ps, t'⟩ <;> rfl
  rw [hfds, runPipeline, all_withFds_pipe]
  split_ifs
  · rw [runPipeline, if_pos (List.all_eq_true.mpr fun _ _ => rfl)]
    rfl
  · rfl

end SystemsPortfolio.Wsh
