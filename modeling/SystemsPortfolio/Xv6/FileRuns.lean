/-
SystemsPortfolio/Xv6/FileRuns.lean

References to open files, over every run: `file_refs` has the counts, `pipe_call_safe` the
pipes, and `files_no_leak` what is left when nobody has a descriptor.
-/
import SystemsPortfolio.Xv6.FileMoves

namespace SystemsPortfolio.Xv6

open Threads RefCount

variable {τ π ι : Type} [DecidableEq τ] [DecidableEq π] [Fintype τ] {n : Nat}
  {s s' : FileState τ π ι n} {t u : τ} {f : Fin n}

/-! ### Pipes -/

theorem endOpen_pipeclose (e : PipeEnds) (w v : Bool) :
    endOpen (e.pipeclose w) v = (e.isOpen v && v != w) := by
  rcases e with ⟨r, x⟩
  cases r <;> cases x <;> cases w <;> cases v <;> rfl

theorem pipeclose_live {e e' : PipeEnds} {w : Bool} (h : e.pipeclose w = some e') :
    ∃ v, e'.isOpen v = true := by
  rcases e with ⟨r, x⟩
  cases r <;> cases x <;> cases w <;> cases h <;>
    first
      | exact ⟨true, rfl⟩
      | exact ⟨false, rfl⟩

theorem FileInv.pipeclose {p : π} {w : Bool} {l : List (Fin n)} {k : FileCont} (h : FileInv s)
    (ht : (s.proc t).point = .pipeclose p w l k) : FileInv (s.pipeclose t p w l k) := by
  have hcloses : (s.proc t).closes = some (p, w) := by rw [FileProc.closes, ht]
  have hk : k.Ok (s.proc t).ofile := by
    have hp := h.points t
    rw [FileState.PointOk, ht] at hp
    exact hp
  -- the end is still open, since a process is about to close it
  have hopen : s.isOpen (p, w) = true := by
    have hpos : 0 < users (FileProc.closes ∘ s.proc) (p, w) := users_pos.mpr ⟨t, hcloses⟩
    have hends := h.ends (p, w)
    rw [FileState.endUsers] at hends
    split_ifs at hends with ho
    · exact ho
    · omega
  rcases hpipe : s.pipe p with - | e
  · rw [FileState.isOpen, hpipe] at hopen
    cases hopen
  · rw [FileState.pipeclose, hpipe]
    dsimp only
    set s₁ : FileState τ π ι n := { s with pipe := Function.update s.pipe p (e.pipeclose w) } with hs₁
    have hself : s₁.pipe p = e.pipeclose w := Function.update_self ..
    have hother {q : π} (hq : q ≠ p) : s₁.pipe q = s.pipe q := Function.update_of_ne hq ..
    refine h.move rfl (fun f => ?_) h.blank h.mode (fun a => ?_) (fun q e' he' => ?_)
      (fun u f _ _ => .of_eq rfl) (fun _ _ _ _ => id) hk (fun u j _ hc => ?_)
      (fun _ _ e => by cases e) h.sound
    · show (s.file f).ref + (users (s.proc t).ofile f + (s.proc t).point.hand.count f) =
        (s.file f).ref + (users (s.proc t).ofile f + l.count f)
      rw [ht]
      rfl
    · have h₁ := endUsers_setProc (s := s₁) (t := t) (q := ⟨(s.proc t).ofile, .closing l k⟩) a
      have h₂ := h.ends a
      rw [show (s₁.proc t).closes = some (p, w) from hcloses] at h₁
      change (s₁.goto t (.closing l k)).endUsers a + _ = s.endUsers a + 0 at h₁
      rw [h₂] at h₁
      obtain ⟨q, v⟩ := a
      have hshow : (s₁.goto t (.closing l k)).isOpen (q, v) =
          (s.isOpen (q, v) && decide ((p, w) ≠ (q, v))) := by
        show endOpen (s₁.pipe q) v = (endOpen (s.pipe q) v && _)
        rcases eq_or_ne q p with rfl | hq
        · rw [hself, endOpen_pipeclose, hpipe, endOpen]
          cases v <;> cases w <;> simp
        · rw [hother hq]
          simp [hq.symm]
      rw [hshow]
      rcases eq_or_ne (p, w) (q, v) with e | hne
      · cases e
        rw [hopen] at h₁
        simp at h₁ ⊢
        omega
      · simp only [Option.some.injEq, hne, if_false, Nat.add_zero] at h₁
        rw [h₁]
        simp [hne]
    · rcases eq_or_ne q p with rfl | hq
      · exact pipeclose_live (hself.symm.trans he')
      · exact h.live q e' ((hother hq).symm.trans he')
    · refine absurd hc (h.no_parent ?_ u j)
      rw [ht]
      exact fun e => by cases e

/-- The end of `pipealloc`: the page and the two entries. -/
def FileState.madePipe (s : FileState τ π ι n) (rf wf : Fin n) (p : π) : FileState τ π ι n :=
  ({ s with pipe := Function.update s.pipe p (some ⟨true, true⟩) }.setFile rf
    { s.file rf with type := .pipe p, readable := true, writable := false }).setFile wf
    { s.file wf with type := .pipe p, readable := false, writable := true }

omit [DecidableEq τ] in
theorem endUsers_madePipe {rf wf : Fin n} {p : π} (hne : rf ≠ wf) (hr : (s.file rf).type = .none)
    (hw : (s.file wf).type = .none) (q : π) (v : Bool) :
    (s.madePipe rf wf p).endUsers (q, v) = s.endUsers (q, v) + if q = p then 1 else 0 := by
  set s₀ : FileState τ π ι n := { s with pipe := Function.update s.pipe p (some ⟨true, true⟩) } with hs₀
  have h₁ := endUsers_setFile (s := s₀) (f := rf)
    (x := { s.file rf with type := .pipe p, readable := true, writable := false }) (q, v)
  have h₂ := endUsers_setFile (f := wf)
    (s := s₀.setFile rf { s.file rf with type := .pipe p, readable := true, writable := false })
    (x := { s.file wf with type := .pipe p, readable := false, writable := true }) (q, v)
  have hwt : (s₀.setFile rf { s.file rf with type := .pipe p, readable := true, writable := false }).file
      wf = s.file wf := Function.update_of_ne hne.symm ..
  rw [show (s₀.file rf).pipeEnd = none by rw [File.pipeEnd]; exact hr ▸ rfl] at h₁
  rw [hwt, show (s.file wf).pipeEnd = none by rw [File.pipeEnd, hw]] at h₂
  change (s.madePipe rf wf p).endUsers (q, v) + 0 = _ at h₂
  change _ = s.endUsers (q, v) + _ at h₁
  rw [File.pipeEnd] at h₁ h₂
  simp only [Option.some.injEq, Prod.mk.injEq, reduceCtorEq, if_false, Nat.add_zero] at h₁ h₂
  rw [h₂, h₁, Nat.add_assoc]
  congr 1
  rcases eq_or_ne q p with rfl | hq
  · cases v <;> simp
  · simp [hq, hq.symm]

theorem FileInv.madePipe {rf wf : Fin n} {p : π} (h : FileInv s)
    (ht : (s.proc t).point = .pipe2 rf wf) (hp : s.pipe p = none) :
    FileInv ((s.madePipe rf wf p).goto t (.closing [rf, wf] .user)) := by
  have hfresh : s.Fresh rf ∧ s.Fresh wf := by
    have hpt := h.points t
    rw [FileState.PointOk, ht] at hpt
    exact hpt
  obtain ⟨⟨hrt, hr1⟩, hwt, hw1⟩ := hfresh
  have hhand : (s.proc t).point.hand = [rf, wf] := by rw [ht]; rfl
  have hrheld : 0 < (s.proc t).held rf := (s.proc t).held_pos_of_hand (by simp [hhand])
  have hwheld : 0 < (s.proc t).held wf := (s.proc t).held_pos_of_hand (by simp [hhand])
  have hne : rf ≠ wf := by
    rintro rfl
    have hle : (s.proc t).held rf ≤ ∑ u, (s.proc u).held rf :=
      Finset.single_le_sum (f := fun u => (s.proc u).held rf) (fun _ _ => Nat.zero_le _)
        (Finset.mem_univ t)
    rw [← h.refs, hr1, FileProc.held, hhand] at hle
    simp at hle
  set s' := (s.madePipe rf wf p).goto t (.closing [rf, wf] .user) with hs'
  have hw : s'.file wf = { s.file wf with type := .pipe p, readable := false, writable := true } :=
    Function.update_self ..
  have hr : s'.file rf = { s.file rf with type := .pipe p, readable := true, writable := false } :=
    (Function.update_of_ne hne ..).trans (Function.update_self ..)
  have hother {f : Fin n} (h₁ : f ≠ rf) (h₂ : f ≠ wf) : s'.file f = s.file f :=
    (Function.update_of_ne h₂ ..).trans (Function.update_of_ne h₁ ..)
  have hcases (f : Fin n) : f = rf ∨ f = wf ∨ s'.file f = s.file f := by
    by_cases h₁ : f = rf
    · exact Or.inl h₁
    · by_cases h₂ : f = wf
      · exact Or.inr (Or.inl h₂)
      · exact Or.inr (Or.inr (hother h₁ h₂))
  have hself : s'.pipe p = some ⟨true, true⟩ := Function.update_self ..
  have hpipe {q : π} (hq : q ≠ p) : s'.pipe q = s.pipe q := Function.update_of_ne hq ..
  have href (f : Fin n) : (s'.file f).ref = (s.file f).ref := by
    rcases hcases f with rfl | rfl | e
    · rw [hr]
    · rw [hw]
    · rw [e]
  -- nobody else has one of the two entries
  have hsame {u : τ} {f : Fin n} (hu : u ≠ t) (hf : 0 < (s.proc u).held f) : s'.file f = s.file f := by
    refine hother ?_ ?_
    · rintro rfl
      exact h.not_held (by omega) hrheld hu hf
    · rintro rfl
      exact h.not_held (by omega) hwheld hu hf
  refine h.move rfl (fun f => ?_) (fun f e => ?_) (fun f q e => ?_) (fun a => ?_) (fun q e he => ?_)
    (fun u f hu hf => .of_eq (hsame hu hf)) (fun u _ f _ e => (href f).trans e) trivial
    (fun u k _ hc => ?_) (fun _ _ e => by cases e) h.sound
  · show (s'.file f).ref + (users (s.proc t).ofile f + (s.proc t).point.hand.count f) =
      (s.file f).ref + (users (s.proc t).ofile f + [rf, wf].count f)
    rw [href, hhand]
  · rw [href] at e
    rcases hcases f with rfl | rfl | e'
    · omega
    · omega
    · rw [e']
      exact h.blank f e
  · rcases hcases f with rfl | rfl | e'
    · rw [hr]
      rfl
    · rw [hw]
      rfl
    · rw [e'] at e ⊢
      exact h.mode f q e
  · obtain ⟨q, v⟩ := a
    have h₁ := endUsers_setProc (s := s.madePipe rf wf p) (t := t)
      (q := ⟨(s.proc t).ofile, .closing [rf, wf] .user⟩) (q, v)
    rw [show ((s.madePipe rf wf p).proc t).closes = none by
      rw [FileProc.closes]; exact ht ▸ rfl] at h₁
    have h₂ : s'.endUsers (q, v) = s.endUsers (q, v) + if q = p then 1 else 0 :=
      (Nat.add_right_cancel h₁).trans (endUsers_madePipe hne hrt hwt q v)
    rw [h₂, h.ends]
    rcases eq_or_ne q p with rfl | hq
    · rw [FileState.isOpen, hp, FileState.isOpen, hself, if_pos rfl]
      cases v <;> rfl
    · rw [FileState.isOpen, FileState.isOpen, hpipe hq, if_neg hq]
      rfl
  · rcases eq_or_ne q p with rfl | hq
    · rw [hself] at he
      cases he
      exact ⟨true, rfl⟩
    · rw [hpipe hq] at he
      exact h.live q e he
  · refine absurd hc (h.no_parent ?_ u k)
    rw [ht]
    exact fun e => by cases e

/-- Two references go from the hand into descriptors. -/
theorem FileInv.sysPipe {rf wf : Fin n} {p : π} (h : FileInv s)
    (ht : (s.proc t).point = .pipe2 rf wf) (hp : s.pipe p = none) : FileInv (s.sysPipe t rf wf p) := by
  have hmade := h.madePipe ht hp
  rw [FileState.sysPipe]
  rcases h₀ : fdalloc (s.proc t).ofile with - | fd0
  · exact hmade
  · dsimp only
    rcases h₁ : fdalloc (Function.update (s.proc t).ofile fd0 (some rf)) with - | fd1
    · exact hmade
    · dsimp only
      have hproc : ((s.madePipe rf wf p).goto t (.closing [rf, wf] .user)).proc t =
          ⟨(s.proc t).ofile, .closing [rf, wf] .user⟩ := Function.update_self ..
      have hshift : FileInv (((s.madePipe rf wf p).goto t (.closing [rf, wf] .user)).setProc t
          ⟨Function.update (Function.update (s.proc t).ofile fd0 (some rf)) fd1 (some wf), .user⟩) := by
        refine hmade.shift (fun f => ?_) ?_ trivial (fun u k _ => hmade.no_parent ?_ u k)
          (fun _ _ e => by cases e)
        · rw [hproc, FileProc.held, FileProc.held, users_put (fdalloc_eq_some h₁),
            users_put (fdalloc_eq_some h₀)]
          show _ + 0 = users (s.proc t).ofile f + [rf, wf].count f
          rw [List.count_cons, List.count_singleton]
          simp only [beq_iff_eq]
          omega
        · rw [hproc]
          rfl
        · rw [hproc]
          exact fun e => by cases e
      have he : (((s.madePipe rf wf p).setFd t fd0 (some rf)).setFd t fd1 (some wf)).goto t .user =
          ((s.madePipe rf wf p).goto t (.closing [rf, wf] .user)).setProc t
            ⟨Function.update (Function.update (s.proc t).ofile fd0 (some rf)) fd1 (some wf), .user⟩ := by
        simp only [FileState.goto, FileState.setFd, FileState.setProc, Function.update_self,
          Function.update_idem]
        rfl
      exact he ▸ hshift

theorem FileInv.sysOpen {i : ι} {readable writable : Bool} (h : FileInv s)
    (ht : (s.proc t).point = .opening f) : FileInv (s.sysOpen t f i readable writable) := by
  have hfresh : s.Fresh f := by
    have hpt := h.points t
    rw [FileState.PointOk, ht] at hpt
    exact hpt
  have hcl : (s.proc t).point ≠ .embryo := by
    rw [ht]
    exact fun e => by cases e
  have hheld : 0 < (s.proc t).held f := (s.proc t).held_pos_of_hand (by simp [ht, FilePoint.hand])
  have hnone : (s.proc t).closes = none := by rw [FileProc.closes, ht]
  rw [FileState.sysOpen]
  rcases h₀ : fdalloc (s.proc t).ofile with - | fd
  · refine h.goto ?_ ?_ trivial (fun u k _ => h.no_parent hcl u k) (fun _ _ e => by cases e)
    · rw [ht]
      rfl
    · rw [hnone]
      rfl
  · dsimp only
    set x : File π ι := { s.file f with type := .inode i, readable, writable } with hx
    have he : ((s.setFile f x).setFd t fd (some f)).goto t .user =
        (s.setFile f x).setProc t ⟨Function.update (s.proc t).ofile fd (some f), .user⟩ := by
      simp only [FileState.goto, FileState.setFd, FileState.setProc, Function.update_self,
        Function.update_idem]
      rfl
    rw [he]
    set s' := (s.setFile f x).setProc t ⟨Function.update (s.proc t).ofile fd (some f), .user⟩ with hs'
    have hother {f' : Fin n} (e : f' ≠ f) : s'.file f' = s.file f' := Function.update_of_ne e ..
    have hself : s'.file f = x := Function.update_self ..
    have href (f' : Fin n) : (s'.file f').ref = (s.file f').ref := by
      rcases eq_or_ne f' f with rfl | hff
      · rw [hself]
      · rw [hother hff]
    refine h.move rfl (fun f' => ?_) (fun f' e => ?_) (fun f' q e => ?_) (fun a => ?_) h.live
      (fun u f' hu hf' => .of_eq (hother ?_)) (fun u _ f' _ e => (href f').trans e) trivial
      (fun u k _ hc => absurd hc (h.no_parent hcl u k)) (fun _ _ e => by cases e) h.sound
    · show (s'.file f').ref + (users (s.proc t).ofile f' + (s.proc t).point.hand.count f') =
        (s.file f').ref + (users (Function.update (s.proc t).ofile fd (some f)) f' + 0)
      rw [href, users_put (fdalloc_eq_some h₀), ht]
      show _ + (_ + [f].count f') = _
      rw [List.count_singleton]
      simp only [beq_iff_eq]
      omega
    · rcases eq_or_ne f' f with rfl | hff
      · rw [href, hfresh.2] at e
        cases e
      · rw [hother hff] at e ⊢
        exact h.blank f' e
    · rcases eq_or_ne f' f with rfl | hff
      · rw [hself, hx] at e
        cases e
      · rw [hother hff] at e ⊢
        exact h.mode f' q e
    · have h₁ := endUsers_setProc (s := s.setFile f x) (t := t)
        (q := ⟨Function.update (s.proc t).ofile fd (some f), .user⟩) a
      have h₂ := endUsers_setFile (s := s) (f := f) (x := x) a
      rw [show ((s.setFile f x).proc t).closes = none from hnone] at h₁
      rw [show (s.file f).pipeEnd = none by rw [File.pipeEnd, hfresh.1]] at h₂
      exact (Nat.add_right_cancel h₁).trans ((Nat.add_right_cancel h₂).trans (h.ends a))
    · rintro rfl
      exact h.not_held (by rw [hfresh.2]) hheld hu hf'

/-! ### Sharing descriptors -/

theorem FileInv.sysDup {fd : Fin nofile} (h : FileInv s) (ht : (s.proc t).point = .user)
    (hf : (s.proc t).ofile fd = some f) : FileInv (s.sysDup t f) := by
  have hheld := (s.proc t).held_pos_of_ofile hf
  rw [FileState.sysDup]
  rcases h₀ : fdalloc (s.proc t).ofile with - | fd'
  · exact h
  · have he : (s.setFd t fd' (some f)).filedup f = (s.filedup f).setFd t fd' (some f) := by
      have hpos := h.ref_pos hheld
      rw [FileState.filedup, FileState.filedup, if_neg (show ¬ (s.file f).ref < 1 by omega),
        if_neg (show ¬ ((s.setFd t fd' (some f)).file f).ref < 1 from by
          show ¬ (s.file f).ref < 1
          omega)]
      rfl
    show FileInv ((s.setFd t fd' (some f)).filedup f)
    rw [he]
    refine h.filedup hheld (fdalloc_eq_some h₀) (fun u hu hfu => ?_) ?_ (fun u k _ hc => ?_)
    · have := h.ref_two hu ((s.proc u).held_pos_of_hand hfu) hheld
      omega
    · rw [ht]
      exact trivial
    · refine absurd hc (h.no_parent ?_ u k)
      rw [ht]
      exact fun e => by cases e

theorem FileInv.forkFd {child : τ} {fd : Fin nofile} (h : FileInv s)
    (ht : (s.proc t).point = .forking child fd.val) : FileInv (s.forkFd t child fd) := by
  have hpt := h.points t
  rw [FileState.PointOk, ht] at hpt
  obtain ⟨hemb, hnone⟩ := hpt
  have hct : child ≠ t := by
    rintro rfl
    rw [ht] at hemb
    cases hemb
  have hcl : (s.proc t).point ≠ .embryo := by
    rw [ht]
    exact fun e => by cases e
  have h₁ : FileInv (s.goto t (.forking child (fd.val + 1))) := by
    refine h.goto ?_ ?_ ?_ (fun u k _ => h.no_parent hcl u k) (fun c k e u j hu hcu => ?_)
    · rw [ht]
      rfl
    · rw [FileProc.closes, FileProc.closes, ht]
    · have hchild : (s.goto t (.forking child (fd.val + 1))).proc child = s.proc child :=
        Function.update_of_ne hct ..
      refine ⟨?_, fun fd' hfd' => ?_⟩
      · rw [hchild]
        exact hemb
      · rw [hchild]
        exact hnone fd' (by omega)
    · cases e
      exact hu (h.apart u t child j fd.val hcu ht)
  rw [FileState.forkFd]
  rcases hf : (s.proc t).ofile fd with - | f
  · exact h₁
  · dsimp only
    set s₁ := s.goto t (.forking child (fd.val + 1)) with hs₁
    have hpt₁ : s₁.proc t = ⟨(s.proc t).ofile, .forking child (fd.val + 1)⟩ := Function.update_self ..
    have hpc₁ : s₁.proc child = s.proc child := Function.update_of_ne hct ..
    have hheld : 0 < (s₁.proc t).held f := by
      rw [hpt₁]
      exact FileProc.held_pos_of_ofile hf
    refine h₁.filedup hheld ?_ (fun u hu hfu => ?_) ?_ (fun u k hu hc => ?_)
    · rw [hpc₁]
      exact hnone fd (Nat.le_refl _)
    · have hut : u ≠ t := by
        rintro rfl
        rw [hpt₁] at hfu
        cases hfu
      have := h₁.ref_two hut ((s₁.proc u).held_pos_of_hand hfu) hheld
      omega
    · rw [hpc₁, hemb]
      exact trivial
    · have hpoint : (s₁.proc t).point = .forking child (fd.val + 1) := by rw [hpt₁]
      obtain rfl := h₁.apart u t child k _ hc hpoint
      rw [hpoint] at hc
      cases hc
      exact Nat.lt_succ_self _

theorem FileInv.fork {child : τ} (h : FileInv s) (ht : (s.proc t).point = .user)
    (hc : (s.proc child).point = .unused) :
    FileInv ((s.goto child .embryo).goto t (.forking child 0)) := by
  have hct : child ≠ t := by
    rintro rfl
    rw [ht] at hc
    cases hc
  have hnone : ∀ fd, (s.proc child).ofile fd = none := by
    have hpt := h.points child
    rw [FileState.PointOk, hc] at hpt
    exact hpt
  have horphan (u : τ) (k : Nat) : (s.proc u).point ≠ .forking child k :=
    h.no_parent (by rw [hc]; exact fun e => by cases e) u k
  have h₁ : FileInv (s.goto child .embryo) := by
    refine h.goto ?_ ?_ trivial (fun u k _ => horphan u k) (fun _ _ e => by cases e)
    · rw [hc]
      rfl
    · rw [FileProc.closes, FileProc.closes, hc]
  have hpt₁ : (s.goto child .embryo).proc t = s.proc t := Function.update_of_ne hct.symm ..
  refine h₁.goto ?_ ?_ ?_ (fun u k _ => h₁.no_parent ?_ u k) (fun c k e u j hu hcu => ?_)
  · rw [hpt₁, ht]
    rfl
  · rw [hpt₁, FileProc.closes, FileProc.closes, ht]
  · have hchild : ((s.goto child .embryo).goto t (.forking child 0)).proc child =
        ⟨(s.proc child).ofile, .embryo⟩ :=
      (Function.update_of_ne hct ..).trans (Function.update_self ..)
    refine ⟨?_, fun fd _ => ?_⟩
    · rw [hchild]
    · rw [hchild]
      exact hnone fd
  · rw [hpt₁, ht]
    exact fun e => by cases e
  · cases e
    rcases eq_or_ne u child with rfl | huc
    · rw [show (s.goto u .embryo).proc u = ⟨(s.proc u).ofile, .embryo⟩ from Function.update_self ..] at hcu
      cases hcu
    · rw [show (s.goto child .embryo).proc u = s.proc u from Function.update_of_ne huc ..] at hcu
      exact horphan u j hcu

theorem FileInv.forked {child : τ} (h : FileInv s) (ht : (s.proc t).point = .forking child nofile) :
    FileInv ((s.goto t .user).goto child .user) := by
  have hpt := h.points t
  rw [FileState.PointOk, ht] at hpt
  obtain ⟨hemb, -⟩ := hpt
  have hct : child ≠ t := by
    rintro rfl
    rw [ht] at hemb
    cases hemb
  have h₁ : FileInv (s.goto t .user) := by
    refine h.goto ?_ ?_ trivial (fun u k _ => h.no_parent ?_ u k) (fun _ _ e => by cases e)
    · rw [ht]
      rfl
    · rw [FileProc.closes, FileProc.closes, ht]
    · rw [ht]
      exact fun e => by cases e
  have hpc₁ : (s.goto t .user).proc child = s.proc child := Function.update_of_ne hct ..
  refine h₁.goto ?_ ?_ trivial (fun u k _ hcu => ?_) (fun _ _ e => by cases e)
  · rw [hpc₁, hemb]
    rfl
  · rw [hpc₁, FileProc.closes, FileProc.closes, hemb]
  · rcases eq_or_ne u t with rfl | hut
    · rw [show (s.goto u .user).proc u = ⟨(s.proc u).ofile, .user⟩ from Function.update_self ..] at hcu
      cases hcu
    · rw [show (s.goto t .user).proc u = s.proc u from Function.update_of_ne hut ..] at hcu
      exact hut (h.apart u t child k _ hcu ht)

/-! ### Every run -/

/-- A reference goes from a descriptor of `t` into its hand. -/
theorem FileInv.takeFd {fd : Fin nofile} {k : FileCont} (h : FileInv s)
    (hf : (s.proc t).ofile fd = some f) (hhand : (s.proc t).point.hand = [])
    (hcloses : (s.proc t).closes = none) (ht : (s.proc t).point ≠ .embryo)
    (hk : k.Ok (Function.update (s.proc t).ofile fd none)) :
    FileInv ((s.setFd t fd none).goto t (.closing [f] k)) := by
  have he : (s.setFd t fd none).goto t (.closing [f] k) =
      s.setProc t ⟨Function.update (s.proc t).ofile fd none, .closing [f] k⟩ := by
    simp only [FileState.goto, FileState.setFd, FileState.setProc, Function.update_self,
      Function.update_idem]
  rw [he]
  refine h.shift (held_take hf hhand rfl) ?_ hk (fun u j _ => h.no_parent ht u j)
    (fun _ _ e => by cases e)
  rw [hcloses]
  rfl

theorem FileInv.exitFd {fd : Fin nofile} (h : FileInv s)
    (ht : (s.proc t).point = .closing [] (.exiting fd.val)) : FileInv (s.exitFd t fd) := by
  have hpassed : ∀ fd' : Fin nofile, fd'.val < fd.val → (s.proc t).ofile fd' = none := by
    have hpt := h.points t
    rw [FileState.PointOk, ht] at hpt
    exact hpt
  have hcl : (s.proc t).point ≠ .embryo := by
    rw [ht]
    exact fun e => by cases e
  have hclo : (s.proc t).closes = none := by rw [FileProc.closes, ht]
  rw [FileState.exitFd]
  rcases hf : (s.proc t).ofile fd with - | f
  · refine h.goto ?_ ?_ (fun fd' hlt => ?_) (fun u k _ => h.no_parent hcl u k)
      (fun _ _ e => by cases e)
    · rw [ht]
      rfl
    · rw [hclo]
      rfl
    · rcases Nat.lt_succ_iff_lt_or_eq.mp hlt with hlt | e
      · exact hpassed fd' hlt
      · rw [Fin.ext e]
        exact hf
  · refine h.takeFd hf ?_ hclo hcl (fun fd' hlt => ?_)
    · rw [ht]
      rfl
    · rcases eq_or_ne fd' fd with rfl | hne
      · rw [Function.update_self]
      · rw [Function.update_of_ne hne]
        refine hpassed fd' (Nat.lt_of_le_of_ne (Nat.lt_succ_iff.mp hlt) fun e => hne (Fin.ext e))

/-- A step that only moves a process to another point. -/
theorem FileInv.moveOn {p p' : FilePoint τ (Fin n) π} (h : FileInv s) (ht : (s.proc t).point = p)
    (hhand : p'.hand = p.hand) (hcl : p ≠ .embryo) (hfork : ∀ c k, p' ≠ .forking c k)
    (hno : ∀ q w l k, p ≠ .pipeclose q w l k) (hno' : ∀ q w l k, p' ≠ .pipeclose q w l k)
    (hpoint : (s.goto t p').PointOk ⟨(s.proc t).ofile, p'⟩) : FileInv (s.goto t p') := by
  have hnone {q : FileProc τ (Fin n) π} (hq : ∀ r w l k, q.point ≠ .pipeclose r w l k) :
      q.closes = none := by
    rw [FileProc.closes]
    split
    · next r w l k e => exact absurd e (hq r w l k)
    · rfl
  refine h.goto ?_ ?_ hpoint (fun u k _ => h.no_parent ?_ u k) (fun c k e => absurd e (hfork c k))
  · rw [ht]
    exact hhand
  · rw [hnone (q := s.proc t) (fun r w l k => ht ▸ hno r w l k)]
    exact hnone hno'
  · rw [ht]
    exact hcl

theorem FileInv.fresh_filealloc (h : FileInv s) (hf : (s.file f).ref = 0) (t : τ)
    (p : FilePoint τ (Fin n) π) : ((s.filealloc f).goto t p).Fresh f := by
  rw [FileState.Fresh, show ((s.filealloc f).goto t p).file f = { s.file f with ref := 1 } from
    Function.update_self ..]
  exact ⟨h.blank f hf, rfl⟩

theorem count_single (f f' : Fin n) : [f].count f' = ([] : List (Fin n)).count f' + if f = f' then 1 else 0 := by
  rw [List.count_singleton, List.count_nil, Nat.zero_add]
  simp only [beq_iff_eq]

theorem FileInv.next (h : FileInv s) (hs : FileStep s s') : FileInv s' := by
  cases hs with
  | dup t fd f ht hf => exact h.sysDup ht hf
  | close t fd f ht hf =>
      refine h.takeFd hf ?_ ?_ ?_ trivial
      · rw [ht]
        rfl
      · rw [FileProc.closes, ht]
      · rw [ht]
        exact fun e => by cases e
  | fileclose t f l k ht => exact h.fileclose ht
  | pipeclose t p w l k ht => exact h.pipeclose ht
  | closed t ht => refine h.moveOn ht rfl ?_ ?_ ?_ ?_ trivial <;> simp
  | exit t ht =>
      refine h.moveOn ht rfl ?_ ?_ ?_ ?_ (fun fd hfd => absurd hfd (Nat.not_lt_zero _)) <;> simp
  | exitFd t fd ht => exact h.exitFd ht
  | exited t ht =>
      have hpt := h.points t
      rw [FileState.PointOk, ht] at hpt
      refine h.moveOn ht rfl ?_ ?_ ?_ ?_ (fun fd => hpt fd fd.isLt) <;> simp
  | wait t ht =>
      have hpt := h.points t
      rw [FileState.PointOk, ht] at hpt
      refine h.moveOn ht rfl ?_ ?_ ?_ ?_ hpt <;> simp
  | fork t child ht hc => exact h.fork ht hc
  | forkFd t child fd ht => exact h.forkFd ht
  | forked t child ht => exact h.forked ht
  | pipe1 t f ht hf =>
      have hf0 := freeFile_eq_some hf
      refine h.filealloc hf0 (fun f' => ?_) ?_ (h.fresh_filealloc hf0 _ _) ?_ (fun _ _ e => by cases e)
      · rw [ht]
        exact count_single f f'
      · rw [FileProc.closes, FileProc.closes, ht]
      · rw [ht]
        exact fun e => by cases e
  | pipe2 t rf wf ht hf =>
      have hf0 := freeFile_eq_some hf
      have hrf : s.Fresh rf := by
        have hpt := h.points t
        rw [FileState.PointOk, ht] at hpt
        exact hpt
      have hne : rf ≠ wf := by
        rintro rfl
        rw [hrf.2] at hf0
        cases hf0
      refine h.filealloc hf0 (fun f' => ?_) ?_ ⟨?_, h.fresh_filealloc hf0 _ _⟩ ?_
        (fun _ _ e => by cases e)
      · rw [ht]
        show [rf, wf].count f' = [rf].count f' + _
        rw [List.count_cons, List.count_singleton, List.count_singleton]
        simp only [beq_iff_eq]
        omega
      · rw [FileProc.closes, FileProc.closes, ht]
      · rw [FileState.Fresh, show ((s.filealloc wf).goto t (.pipe2 rf wf)).file rf = s.file rf from
          Function.update_of_ne hne ..]
        exact hrf
      · rw [ht]
        exact fun e => by cases e
  | pipe2Bad t rf ht hf => refine h.moveOn ht rfl ?_ ?_ ?_ ?_ trivial <;> simp
  | pipe3Bad t rf wf ht => refine h.moveOn ht rfl ?_ ?_ ?_ ?_ trivial <;> simp
  | sysPipe t rf wf p ht hp => exact h.sysPipe ht hp
  | openFile t f ht hf =>
      have hf0 := freeFile_eq_some hf
      refine h.filealloc hf0 (fun f' => ?_) ?_ (h.fresh_filealloc hf0 _ _) ?_ (fun _ _ e => by cases e)
      · rw [ht]
        exact count_single f f'
      · rw [FileProc.closes, FileProc.closes, ht]
      · rw [ht]
        exact fun e => by cases e
  | sysOpen t f i readable writable ht => exact h.sysOpen ht
  | piperw t w fd f p ht hf hty hm =>
      refine h.moveOn ht rfl ?_ ?_ ?_ ?_ ⟨f, p, hf, hty, hm⟩ <;> simp
  | returned t w fd ht => refine h.moveOn ht rfl ?_ ?_ ?_ ?_ trivial <;> simp

theorem fileInv_of_reachable (h : (fileSystem τ π ι n).Reachable s) : FileInv s := by
  refine h.invariant (fun s hs => ?_) fun s s' _ hi hs => hi.next hs
  obtain ⟨hfile, hpipe, hofile, hfault, t, ht, hothers⟩ := hs
  have hpoint (u : τ) : (s.proc u).point = .user ∨ (s.proc u).point = .unused := by
    rcases eq_or_ne u t with rfl | hu
    · exact Or.inl ht
    · exact Or.inr (hothers u hu)
  have hhand (u : τ) : (s.proc u).point.hand = [] := by
    rcases hpoint u with e | e <;> rw [e] <;> rfl
  have hcloses (u : τ) : (s.proc u).closes = none := by
    rw [FileProc.closes]
    rcases hpoint u with e | e <;> rw [e]
  refine ⟨fun f => ?_, fun f _ => (hfile f).2, fun f p e => ?_, fun a => ?_, fun p e he => ?_,
    fun u => ?_, fun u v c k j hu => ?_, hfault⟩
  · rw [(hfile f).1]
    exact (Finset.sum_eq_zero fun u _ => FileProc.held_eq_zero (hofile u) (hhand u) f).symm
  · rw [(hfile f).2] at e
    cases e
  · rw [FileState.isOpen, hpipe]
    exact endUsers_eq_zero (fun f => (hfile f).2) hcloses a
  · rw [hpipe] at he
    cases he
  · rw [FileState.PointOk]
    rcases hpoint u with e | e
    · rw [e]
      exact trivial
    · rw [e]
      exact hofile u
  · rcases hpoint u with e | e <;> rw [e] at hu <;> cases hu

/-- Two entries and the first process. -/
def fileStart : FileState Bool Unit Unit 2 where
  file _ := ⟨.none, 0, false, false⟩
  pipe _ := none
  proc t := ⟨fun _ => none, if t then .user else .unused⟩
  fault := false

theorem fileStart_reachable : (fileSystem Bool Unit Unit 2).Reachable fileStart := by
  refine .start ⟨fun _ => ⟨rfl, rfl⟩, fun _ => rfl, fun _ _ => rfl, rfl, true, rfl, fun u hu => ?_⟩
  cases u
  · rfl
  · exact absurd rfl hu

/-- The first process has made a pipe. -/
def filePiped : FileState Bool Unit Unit 2 :=
  ((((fileStart.filealloc ⟨0, by decide⟩).goto true (.pipe1 ⟨0, by decide⟩)).filealloc
    ⟨1, by decide⟩).goto true (.pipe2 ⟨0, by decide⟩ ⟨1, by decide⟩)).sysPipe true ⟨0, by decide⟩
      ⟨1, by decide⟩ ()

theorem filePiped_reachable : (fileSystem Bool Unit Unit 2).Reachable filePiped := by
  have h₁ := fileStart_reachable.next (FileStep.pipe1 _ true ⟨0, by decide⟩ rfl rfl)
  have h₂ := h₁.next (FileStep.pipe2 _ true ⟨0, by decide⟩ ⟨1, by decide⟩ rfl rfl)
  exact h₂.next (FileStep.sysPipe _ true ⟨0, by decide⟩ ⟨1, by decide⟩ () rfl rfl)

/-- It reads from the pipe. -/
theorem exists_reading : ∃ s : FileState Bool Unit Unit 2, ∃ fd,
    (fileSystem Bool Unit Unit 2).Reachable s ∧ (s.proc true).point = .piperw false fd ∧
      (s.file ⟨0, by decide⟩).ref = 1 :=
  ⟨_, ⟨0, by decide⟩, filePiped_reachable.next (FileStep.piperw _ true false ⟨0, by decide⟩
    ⟨0, by decide⟩ () rfl rfl rfl rfl), rfl, rfl⟩

/-- It has closed both ends again. -/
theorem exists_closed : ∃ s : FileState Bool Unit Unit 2,
    (fileSystem Bool Unit Unit 2).Reachable s ∧ (s.file ⟨1, by decide⟩).writable = true ∧
      ∀ t, (s.proc t).point = .unused ∨ (s.proc t).point = .zombie ∨
        (s.proc t).point = .user ∧ ∀ fd, (s.proc t).ofile fd = none := by
  have h₁ := filePiped_reachable.next (FileStep.close _ true ⟨0, by decide⟩ ⟨0, by decide⟩ rfl rfl)
  have h₂ := h₁.next (FileStep.fileclose _ true ⟨0, by decide⟩ [] .user rfl)
  have h₃ := h₂.next (FileStep.pipeclose _ true () false [] .user rfl)
  have h₄ := h₃.next (FileStep.closed _ true rfl)
  have h₅ := h₄.next (FileStep.close _ true ⟨1, by decide⟩ ⟨1, by decide⟩ rfl rfl)
  have h₆ := h₅.next (FileStep.fileclose _ true ⟨1, by decide⟩ [] .user rfl)
  have h₇ := h₆.next (FileStep.pipeclose _ true () true [] .user rfl)
  have h₈ := h₇.next (FileStep.closed _ true rfl)
  refine ⟨_, h₈, rfl, fun t => ?_⟩
  cases t
  · exact Or.inl rfl
  · exact Or.inr (Or.inr ⟨rfl, by decide⟩)

/-- **The counts are right.**  In every state the count of an entry is the number of its descriptors
and of the references in the hands of calls, and neither `filedup` nor `fileclose` panics. -/
theorem file_refs (h : (fileSystem τ π ι n).Reachable s) :
    s.fault = false ∧
      ∀ f, (s.file f).ref =
        (∑ t, users (s.proc t).ofile f) + ∑ t, (s.proc t).point.hand.count f := by
  have hi := fileInv_of_reachable h
  refine ⟨hi.sound, fun f => ?_⟩
  rw [hi.refs f, ← Finset.sum_add_distrib]
  rfl

theorem file_refs_reading : ∃ s : FileState Bool Unit Unit 2, ∃ fd,
    (s.proc true).point = .piperw false fd ∧ s.fault = false ∧
      1 = (∑ t, users (s.proc t).ofile ⟨0, by decide⟩) +
        ∑ t, (s.proc t).point.hand.count ⟨0, by decide⟩ := by
  obtain ⟨s, fd, h, ht, hone⟩ := exists_reading
  obtain ⟨hfault, hrefs⟩ := file_refs h
  exact ⟨s, fd, ht, hfault, hone ▸ hrefs _⟩

/-- **A pipe is not freed under its users.**  While a process is in `piperead` or `pipewrite` its
descriptor has the end of a pipe for that direction, the pipe is there, the end is open, and no
process is about to close it. -/
theorem pipe_call_safe {w : Bool} {fd : Fin nofile} (h : (fileSystem τ π ι n).Reachable s)
    (ht : (s.proc t).point = .piperw w fd) :
    ∃ f p e, (s.proc t).ofile fd = some f ∧ (s.file f).type = .pipe p ∧
      (s.file f).writable = w ∧ s.pipe p = some e ∧ e.isOpen w = true ∧
      ∀ u l k, (s.proc u).point ≠ .pipeclose p w l k := by
  have hi := fileInv_of_reachable h
  have hpt := hi.points t
  rw [FileState.PointOk, ht] at hpt
  obtain ⟨f, p, hf, hty, hm⟩ := hpt
  have hw : (s.file f).writable = w := by
    rw [FileState.Mode, hi.mode f p hty] at hm
    cases w <;> cases hx : (s.file f).writable <;> rw [hx] at hm <;> first | rfl | cases hm
  have hend : (File.pipeEnd ∘ s.file) f = some (p, w) := by
    rw [Function.comp_apply, File.pipeEnd, hty, hw]
  have hpos : 0 < users (File.pipeEnd ∘ s.file) (p, w) := users_pos.mpr ⟨f, hend⟩
  have hends := hi.ends (p, w)
  rw [FileState.endUsers] at hends
  have hopen : s.isOpen (p, w) = true := by
    split_ifs at hends with ho
    · exact ho
    · omega
  rw [if_pos hopen] at hends
  rcases hpipe : s.pipe p with - | e
  · rw [FileState.isOpen, hpipe] at hopen
    cases hopen
  · rw [FileState.isOpen, hpipe] at hopen
    refine ⟨f, p, e, hf, hty, hw, hpipe, hopen, fun u l k hu => ?_⟩
    have hclose : 0 < users (FileProc.closes ∘ s.proc) (p, w) := by
      refine users_pos.mpr ⟨u, ?_⟩
      rw [Function.comp_apply, FileProc.closes, hu]
    omega

theorem pipe_call_safe_reading : ∃ (s : FileState Bool Unit Unit 2) (e : PipeEnds),
    (fileSystem Bool Unit Unit 2).Reachable s ∧ s.pipe () = some e ∧ e.isOpen false = true := by
  obtain ⟨s, fd, h, ht, -⟩ := exists_reading
  obtain ⟨f, p, e, -, -, -, hp, ho, -⟩ := pipe_call_safe h ht
  exact ⟨s, e, h, hp, ho⟩

/-- **Nothing leaks.**  When no process has a descriptor left and no call is under way, every entry of
`ftable` is free again and every pipe has been freed. -/
theorem files_no_leak (h : (fileSystem τ π ι n).Reachable s)
    (hidle : ∀ t, (s.proc t).point = .unused ∨ (s.proc t).point = .zombie ∨
      (s.proc t).point = .user ∧ ∀ fd, (s.proc t).ofile fd = none) :
    (∀ f, (s.file f).ref = 0 ∧ (s.file f).type = .none) ∧ ∀ p, s.pipe p = none := by
  have hi := fileInv_of_reachable h
  have hofile (t : τ) : ∀ fd, (s.proc t).ofile fd = none := by
    have hpt := hi.points t
    rw [FileState.PointOk] at hpt
    rcases hidle t with e | e | ⟨-, e⟩
    · rw [e] at hpt
      exact hpt
    · rw [e] at hpt
      exact hpt
    · exact e
  have hhand (t : τ) : (s.proc t).point.hand = [] := by
    rcases hidle t with e | e | ⟨e, -⟩ <;> rw [e] <;> rfl
  have hcloses (t : τ) : (s.proc t).closes = none := by
    rw [FileProc.closes]
    rcases hidle t with e | e | ⟨e, -⟩ <;> rw [e]
  have href (f : Fin n) : (s.file f).ref = 0 := by
    rw [hi.refs f]
    exact Finset.sum_eq_zero fun t _ => FileProc.held_eq_zero (hofile t) (hhand t) f
  refine ⟨fun f => ⟨href f, hi.blank f (href f)⟩, fun p => ?_⟩
  rcases hp : s.pipe p with - | e
  · rfl
  · obtain ⟨w, hw⟩ := hi.live p e hp
    have hends := hi.ends (p, w)
    rw [FileState.isOpen, hp, endOpen, if_pos hw, endUsers_eq_zero (fun f => hi.blank f (href f)) hcloses]
      at hends
    cases hends

theorem files_no_leak_closed : ∃ s : FileState Bool Unit Unit 2,
    (fileSystem Bool Unit Unit 2).Reachable s ∧ (s.file ⟨1, by decide⟩).writable = true ∧
      (s.file ⟨1, by decide⟩).ref = 0 ∧ s.pipe () = none := by
  obtain ⟨s, h, hused, hidle⟩ := exists_closed
  obtain ⟨hfiles, hpipes⟩ := files_no_leak h hidle
  exact ⟨s, h, hused, (hfiles _).1, hpipes ()⟩

end SystemsPortfolio.Xv6
