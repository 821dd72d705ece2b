/-
SystemsPortfolio/Xv6/FileMoves.lean

References to open files, one step at a time.

The count in an entry is the number of descriptors for it in all processes and of the
references that calls under way have in their hands.  So an entry that is free has none, an
entry that is being set up or given back has a single user, and a pipe that a process reads
or writes is there.  `FileInv.move` is what all steps have in common: one process moves, and
the others see no difference in the entries that they use.
-/
import SystemsPortfolio.Xv6.Files
import Mathlib.Algebra.Order.BigOperators.Group.Finset

namespace SystemsPortfolio.Xv6

open Threads RefCount

variable {τ π ι : Type} [DecidableEq τ] [DecidableEq π] [Fintype τ] {n : Nat}

/-! ### References -/

/-- The references to `f` that a process has. -/
def FileProc.held (q : FileProc τ (Fin n) π) (f : Fin n) : Nat :=
  users q.ofile f + q.point.hand.count f

/-- The pipe and the end that an entry stands for. -/
def File.pipeEnd (x : File π ι) : Option (π × Bool) :=
  match x.type with
  | .pipe p => some (p, x.writable)
  | _ => none

/-- The pipe and the end that a process is about to close. -/
def FileProc.closes (q : FileProc τ (Fin n) π) : Option (π × Bool) :=
  match q.point with
  | .pipeclose p w _ _ => some (p, w)
  | _ => none

/-- Whether an end is open, of a pipe that may not be there. -/
def endOpen : Option PipeEnds → Bool → Bool
  | none, _ => false
  | some e, w => e.isOpen w

namespace FileState

variable (s : FileState τ π ι n)

/-- The entries for an end of a pipe, and the processes about to close it. -/
def endUsers (a : π × Bool) : Nat :=
  users (File.pipeEnd ∘ s.file) a + users (FileProc.closes ∘ s.proc) a

/-- The pipe is there and this end of it is open. -/
def isOpen (a : π × Bool) : Bool := endOpen (s.pipe a.1) a.2

/-- An entry that is still being set up, by a single process. -/
def Fresh (f : Fin n) : Prop := (s.file f).type = .none ∧ (s.file f).ref = 1

/-- The mode that a call for reading or writing asks for. -/
def Mode (w : Bool) (f : Fin n) : Prop :=
  (if w then (s.file f).writable else (s.file f).readable) = true

end FileState

/-- The descriptors that the loop of `exit` has passed. -/
def FileCont.Ok (ofile : Fin nofile → Option (Fin n)) : FileCont → Prop
  | user => True
  | exiting k => ∀ fd : Fin nofile, fd.val < k → ofile fd = none

/-- What a process may rely on at its point. -/
def FileState.PointOk (s : FileState τ π ι n) (q : FileProc τ (Fin n) π) : Prop :=
  match q.point with
  | .unused => ∀ fd, q.ofile fd = none
  | .zombie => ∀ fd, q.ofile fd = none
  | .embryo => True
  | .user => True
  | .forking c k => (s.proc c).point = .embryo ∧
      ∀ fd : Fin nofile, k ≤ fd.val → (s.proc c).ofile fd = none
  | .pipe1 rf => s.Fresh rf
  | .pipe2 rf wf => s.Fresh rf ∧ s.Fresh wf
  | .opening f => s.Fresh f
  | .closing _ k => k.Ok q.ofile
  | .pipeclose _ _ _ k => k.Ok q.ofile
  | .piperw w fd => ∃ f p, q.ofile fd = some f ∧ (s.file f).type = .pipe p ∧ s.Mode w f

/-- What holds between steps. -/
structure FileInv (s : FileState τ π ι n) : Prop where
  refs : ∀ f, (s.file f).ref = ∑ t, (s.proc t).held f
  blank : ∀ f, (s.file f).ref = 0 → (s.file f).type = .none
  mode : ∀ f p, (s.file f).type = .pipe p → (s.file f).readable = !(s.file f).writable
  ends : ∀ a, s.endUsers a = if s.isOpen a then 1 else 0
  live : ∀ p e, s.pipe p = some e → ∃ w, e.isOpen w = true
  points : ∀ t, s.PointOk (s.proc t)
  apart : ∀ t u c k j, (s.proc t).point = .forking c k → (s.proc u).point = .forking c j → t = u
  sound : s.fault = false

variable {s s' : FileState τ π ι n} {t u : τ} {f : Fin n}

/-! ### Who holds what -/

omit [DecidableEq τ] [Fintype τ] [DecidableEq π] in
theorem FileProc.held_pos_of_ofile {q : FileProc τ (Fin n) π} {fd : Fin nofile}
    (h : q.ofile fd = some f) : 0 < q.held f :=
  Nat.lt_of_lt_of_le (users_pos.mpr ⟨fd, h⟩) (Nat.le_add_right _ _)

omit [DecidableEq τ] [Fintype τ] [DecidableEq π] in
theorem FileProc.held_pos_of_hand {q : FileProc τ (Fin n) π} (h : f ∈ q.point.hand) : 0 < q.held f :=
  Nat.lt_of_lt_of_le (List.count_pos_iff.mpr h) (Nat.le_add_left _ _)

omit [DecidableEq τ] [Fintype τ] [DecidableEq π] in
theorem FileProc.held_eq_zero {q : FileProc τ (Fin n) π} (hofile : ∀ fd, q.ofile fd = none)
    (hhand : q.point.hand = []) (f : Fin n) : q.held f = 0 := by
  rw [FileProc.held, hhand, List.count_nil, Nat.add_zero]
  refine Nat.eq_zero_of_not_pos fun hpos => ?_
  obtain ⟨fd, hfd⟩ := users_pos.mp hpos
  rw [hofile] at hfd
  cases hfd

omit [DecidableEq τ] in
theorem endUsers_eq_zero (hfile : ∀ f, (s.file f).type = .none)
    (hcloses : ∀ t, (s.proc t).closes = none) (a : π × Bool) : s.endUsers a = 0 := by
  rw [FileState.endUsers]
  refine Nat.eq_zero_of_not_pos fun hpos => ?_
  rcases Nat.add_pos_iff_pos_or_pos.mp hpos with hpos | hpos
  · obtain ⟨f, hf⟩ := users_pos.mp hpos
    rw [Function.comp_apply, File.pipeEnd, hfile] at hf
    cases hf
  · obtain ⟨u, hu⟩ := users_pos.mp hpos
    rw [Function.comp_apply, hcloses] at hu
    cases hu

omit [DecidableEq τ] in
theorem FileInv.ref_pos (h : FileInv s) (hf : 0 < (s.proc t).held f) : 0 < (s.file f).ref := by
  rw [h.refs f]
  have hle : (s.proc t).held f ≤ ∑ u, (s.proc u).held f :=
    Finset.single_le_sum (f := fun u => (s.proc u).held f) (fun _ _ => Nat.zero_le _)
      (Finset.mem_univ t)
  exact Nat.lt_of_lt_of_le hf hle

/-- Two processes hold a file at least twice. -/
theorem FileInv.ref_two (h : FileInv s) (hne : t ≠ u) (ht : 0 < (s.proc t).held f)
    (hu : 0 < (s.proc u).held f) : 1 < (s.file f).ref := by
  have hsub : ∑ v ∈ {t, u}, (s.proc v).held f ≤ ∑ v, (s.proc v).held f :=
    Finset.sum_le_sum_of_subset (Finset.subset_univ _)
  rw [Finset.sum_pair hne, ← h.refs f] at hsub
  omega

/-- A reference that is the only one. -/
theorem FileInv.not_held (h : FileInv s) (hf : (s.file f).ref ≤ 1) (ht : 0 < (s.proc t).held f)
    (hne : u ≠ t) : ¬ 0 < (s.proc u).held f := by
  intro hu
  have := h.ref_two hne hu ht
  omega

/-! ### One process moves -/

/-- What the users of an entry other than the one that moves may see of it. -/
structure FileState.Kept (s s' : FileState τ π ι n) (f : Fin n) : Prop where
  type : (s'.file f).type = (s.file f).type
  readable : (s'.file f).readable = (s.file f).readable
  writable : (s'.file f).writable = (s.file f).writable

omit [DecidableEq τ] [Fintype τ] [DecidableEq π] in
theorem FileState.Kept.of_eq (h : s'.file f = s.file f) : s.Kept s' f := by
  refine ⟨?_, ?_, ?_⟩ <;> rw [h]

omit [DecidableEq τ] [Fintype τ] [DecidableEq π] in
theorem FileState.PointOk.frame {q : FileProc τ (Fin n) π} (h : s.PointOk q)
    (hfile : ∀ f, 0 < q.held f → s.Kept s' f)
    (hone : ∀ f ∈ q.point.hand, (s.file f).ref = 1 → (s'.file f).ref = 1)
    (hchild : ∀ c k, q.point = .forking c k → (s.proc c).point = .embryo →
      (∀ fd : Fin nofile, k ≤ fd.val → (s.proc c).ofile fd = none) →
      (s'.proc c).point = .embryo ∧ ∀ fd : Fin nofile, k ≤ fd.val → (s'.proc c).ofile fd = none) :
    s'.PointOk q := by
  have hfresh {f : Fin n} (hf : f ∈ q.point.hand) (h : s.Fresh f) : s'.Fresh f :=
    ⟨(hfile f (q.held_pos_of_hand hf)).type.trans h.1, hone f hf h.2⟩
  rw [PointOk] at h ⊢
  rcases hp : q.point with - | - | - | ⟨c, k⟩ | rf | ⟨rf, wf⟩ | f | ⟨l, k⟩ | ⟨p, w, l, k⟩ | ⟨w, fd⟩ | -
  all_goals rw [hp] at h hfresh
  · exact h
  · exact trivial
  · exact trivial
  · exact hchild c k hp h.1 h.2
  · exact hfresh List.mem_cons_self h
  · exact ⟨hfresh List.mem_cons_self h.1, hfresh (List.mem_cons_of_mem _ List.mem_cons_self) h.2⟩
  · exact hfresh List.mem_cons_self h
  · exact h
  · exact h
  · obtain ⟨f, p, hf, ht, hm⟩ := h
    have hk := hfile f (q.held_pos_of_ofile hf)
    refine ⟨f, p, hf, hk.type.trans ht, ?_⟩
    rw [Mode, hk.writable, hk.readable]
    exact hm
  · exact h

/-- Process `t` becomes `q`, with what it does to entries and pipes. -/
theorem FileInv.move {q : FileProc τ (Fin n) π} (h : FileInv s)
    (hproc : s'.proc = Function.update s.proc t q)
    (hrefs : ∀ f, (s'.file f).ref + (s.proc t).held f = (s.file f).ref + q.held f)
    (hblank : ∀ f, (s'.file f).ref = 0 → (s'.file f).type = .none)
    (hmode : ∀ f p, (s'.file f).type = .pipe p → (s'.file f).readable = !(s'.file f).writable)
    (hends : ∀ a, s'.endUsers a = if s'.isOpen a then 1 else 0)
    (hlive : ∀ p e, s'.pipe p = some e → ∃ w, e.isOpen w = true)
    (hkept : ∀ u f, u ≠ t → 0 < (s.proc u).held f → s.Kept s' f)
    (hone : ∀ u, u ≠ t → ∀ f ∈ (s.proc u).point.hand, (s.file f).ref = 1 → (s'.file f).ref = 1)
    (hpoint : s'.PointOk q)
    (hparent : ∀ u k, u ≠ t → (s.proc u).point = .forking t k → (s.proc t).point = .embryo →
      (∀ fd : Fin nofile, k ≤ fd.val → (s.proc t).ofile fd = none) →
      q.point = .embryo ∧ ∀ fd : Fin nofile, k ≤ fd.val → q.ofile fd = none)
    (hapart : ∀ c k, q.point = .forking c k → ∀ u j, u ≠ t → (s.proc u).point ≠ .forking c j)
    (hsound : s'.fault = false) : FileInv s' where
  refs f := by
    have hsum := sum_update (fun q : FileProc τ (Fin n) π => q.held f) s.proc t q
    have := hrefs f
    have := h.refs f
    rw [hproc]
    omega
  blank := hblank
  mode := hmode
  ends := hends
  live := hlive
  points u := by
    rw [hproc]
    rcases eq_or_ne u t with rfl | hu
    · rw [Function.update_self]
      exact hpoint
    · rw [Function.update_of_ne hu]
      refine (h.points u).frame (fun f => hkept u f hu) (hone u hu) fun c k hc he hnone => ?_
      rw [hproc]
      rcases eq_or_ne c t with rfl | hct
      · rw [Function.update_self]
        exact hparent u k hu hc he hnone
      · rw [Function.update_of_ne hct]
        exact ⟨he, hnone⟩
  apart u v c k j hu hv := by
    rw [hproc] at hu hv
    rcases eq_or_ne u t with rfl | hut
    · rcases eq_or_ne v u with rfl | hvu
      · rfl
      · rw [Function.update_self] at hu
        rw [Function.update_of_ne hvu] at hv
        exact absurd hv (hapart c k hu v j hvu)
    · rw [Function.update_of_ne hut] at hu
      rcases eq_or_ne v t with rfl | hvt
      · rw [Function.update_self] at hv
        exact absurd hu (hapart c j hv u k hut)
      · rw [Function.update_of_ne hvt] at hv
        exact h.apart u v c k j hu hv
  sound := hsound

omit [DecidableEq τ] in
/-- A process that runs is nobody's embryo. -/
theorem FileInv.no_parent (h : FileInv s) (ht : (s.proc t).point ≠ .embryo) (u : τ) (k : Nat) :
    (s.proc u).point ≠ .forking t k := by
  intro hu
  have hp := h.points u
  rw [FileState.PointOk, hu] at hp
  exact ht hp.1

theorem endUsers_setProc {q : FileProc τ (Fin n) π} (a : π × Bool) :
    (s.setProc t q).endUsers a + (if (s.proc t).closes = some a then 1 else 0) =
      s.endUsers a + if q.closes = some a then 1 else 0 := by
  have hu := users_update (FileProc.closes ∘ s.proc) t q.closes a
  rw [← Function.comp_update] at hu
  rw [Function.comp_apply] at hu
  show users (File.pipeEnd ∘ s.file) a + users (FileProc.closes ∘ Function.update s.proc t q) a + _ =
    users (File.pipeEnd ∘ s.file) a + users (FileProc.closes ∘ s.proc) a + _
  omega

omit [DecidableEq τ] in
theorem endUsers_setFile {x : File π ι} (a : π × Bool) :
    (s.setFile f x).endUsers a + (if (s.file f).pipeEnd = some a then 1 else 0) =
      s.endUsers a + if x.pipeEnd = some a then 1 else 0 := by
  have hu := users_update (File.pipeEnd ∘ s.file) f x.pipeEnd a
  rw [← Function.comp_update] at hu
  rw [Function.comp_apply] at hu
  show users (File.pipeEnd ∘ Function.update s.file f x) a + users (FileProc.closes ∘ s.proc) a + _ =
    users (File.pipeEnd ∘ s.file) a + users (FileProc.closes ∘ s.proc) a + _
  omega

/-- A process moves and takes its references with it. -/
theorem FileInv.shift {q : FileProc τ (Fin n) π} (h : FileInv s)
    (hheld : ∀ f, q.held f = (s.proc t).held f) (hcloses : q.closes = (s.proc t).closes)
    (hpoint : (s.setProc t q).PointOk q)
    (hparent : ∀ u k, u ≠ t → (s.proc u).point ≠ .forking t k)
    (hapart : ∀ c k, q.point = .forking c k → ∀ u j, u ≠ t → (s.proc u).point ≠ .forking c j) :
    FileInv (s.setProc t q) := by
  refine h.move rfl (fun f => ?_) h.blank h.mode (fun a => ?_) h.live (fun u f _ _ => .of_eq rfl)
    (fun _ _ _ _ => id) hpoint (fun u k hu hc => absurd hc (hparent u k hu)) hapart h.sound
  · rw [hheld]
    rfl
  · have he := endUsers_setProc (s := s) (t := t) (q := q) a
    rw [hcloses] at he
    rw [Nat.add_right_cancel he]
    exact h.ends a

/-- The same for a process that keeps its descriptors. -/
theorem FileInv.goto {p : FilePoint τ (Fin n) π} (h : FileInv s)
    (hhand : p.hand = (s.proc t).point.hand)
    (hcloses : FileProc.closes ⟨(s.proc t).ofile, p⟩ = (s.proc t).closes)
    (hpoint : (s.goto t p).PointOk ⟨(s.proc t).ofile, p⟩)
    (hparent : ∀ u k, u ≠ t → (s.proc u).point ≠ .forking t k)
    (hapart : ∀ c k, p = .forking c k → ∀ u j, u ≠ t → (s.proc u).point ≠ .forking c j) :
    FileInv (s.goto t p) := by
  refine h.shift (fun f => ?_) hcloses hpoint hparent hapart
  show users _ f + p.hand.count f = users _ f + (s.proc t).point.hand.count f
  rw [hhand]

omit [DecidableEq τ] [Fintype τ] [DecidableEq π] in
/-- A reference goes from a descriptor into the hand. -/
theorem held_take {q : FileProc τ (Fin n) π} {fd : Fin nofile} {p : FilePoint τ (Fin n) π}
    (hf : q.ofile fd = some f) (hq : q.point.hand = []) (hp : p.hand = [f]) (f' : Fin n) :
    FileProc.held ⟨Function.update q.ofile fd none, p⟩ f' = q.held f' := by
  have hu := users_update q.ofile fd none f'
  rw [hf] at hu
  simp only [reduceCtorEq, if_false, Option.some.injEq] at hu
  rw [FileProc.held, FileProc.held, hp, hq, List.count_singleton, List.count_nil]
  simp only [beq_iff_eq]
  omega

omit [DecidableEq τ] [Fintype τ] [DecidableEq π] in
/-- A reference comes into a descriptor. -/
theorem users_put {ofile : Fin nofile → Option (Fin n)} {fd : Fin nofile} (hfd : ofile fd = none)
    (f f' : Fin n) :
    users (Function.update ofile fd (some f)) f' = users ofile f' + if f = f' then 1 else 0 := by
  have hu := users_update ofile fd (some f) f'
  rw [hfd] at hu
  simpa using hu

omit [DecidableEq τ] [Fintype τ] [DecidableEq π] in
theorem fdalloc_eq_some {ofile : Fin nofile → Option (Fin n)} {fd : Fin nofile}
    (h : fdalloc ofile = some fd) : ofile fd = none := by
  have := List.find?_some h
  simpa using this

omit [DecidableEq τ] [Fintype τ] [DecidableEq π] in
theorem freeFile_eq_some (h : s.freeFile = some f) : (s.file f).ref = 0 := by
  have := List.find?_some h
  simpa using this

/-- `filealloc` by `t`. -/
theorem FileInv.filealloc {p : FilePoint τ (Fin n) π} (h : FileInv s) (hf : (s.file f).ref = 0)
    (hhand : ∀ f', p.hand.count f' = (s.proc t).point.hand.count f' + if f = f' then 1 else 0)
    (hcloses : FileProc.closes ⟨(s.proc t).ofile, p⟩ = (s.proc t).closes)
    (hpoint : ((s.filealloc f).goto t p).PointOk ⟨(s.proc t).ofile, p⟩)
    (ht : (s.proc t).point ≠ .embryo) (hfork : ∀ c k, p ≠ .forking c k) :
    FileInv ((s.filealloc f).goto t p) := by
  have hno (u : τ) : ¬ 0 < (s.proc u).held f := fun hu => by
    have := h.ref_pos hu
    omega
  have hne {u : τ} {f' : Fin n} (hu : 0 < (s.proc u).held f') : f' ≠ f := by
    rintro rfl
    exact hno u hu
  have hother {f' : Fin n} (e : f' ≠ f) : ((s.filealloc f).goto t p).file f' = s.file f' :=
    Function.update_of_ne e ..
  have hself : ((s.filealloc f).goto t p).file f = { s.file f with ref := 1 } :=
    Function.update_self ..
  refine h.move rfl (fun f' => ?_) (fun f' => ?_) (fun f' q => ?_) (fun a => ?_) h.live
    (fun u f' _ hu => .of_eq (hother (hne hu)))
    (fun u _ f' hf' e => (hother (hne ((s.proc u).held_pos_of_hand hf'))).symm ▸ e) hpoint
    (fun u k _ hc => absurd hc (h.no_parent ht u k)) (fun c k e => absurd e (hfork c k)) h.sound
  · have hcount := hhand f'
    show (((s.filealloc f).goto t p).file f').ref +
      (users (s.proc t).ofile f' + (s.proc t).point.hand.count f') =
      (s.file f').ref + (users (s.proc t).ofile f' + p.hand.count f')
    rcases eq_or_ne f' f with rfl | hff
    · rw [if_pos rfl] at hcount
      rw [hself, hf]
      dsimp only
      omega
    · rw [if_neg hff.symm] at hcount
      rw [hother hff]
      omega
  · rcases eq_or_ne f' f with rfl | hff
    · rw [hself]
      exact fun e => by cases e
    · rw [hother hff]
      exact h.blank f'
  · rcases eq_or_ne f' f with rfl | hff
    · rw [hself]
      exact h.mode f' q
    · rw [hother hff]
      exact h.mode f' q
  · have h₁ := endUsers_setProc (s := s.filealloc f) (t := t) (q := ⟨(s.proc t).ofile, p⟩) a
    have h₂ := endUsers_setFile (s := s) (f := f) (x := { s.file f with ref := 1 }) a
    rw [hcloses] at h₁
    have h₃ : ((s.filealloc f).setProc t ⟨(s.proc t).ofile, p⟩).endUsers a =
        (s.filealloc f).endUsers a := Nat.add_right_cancel h₁
    refine h₃.trans ((Nat.add_right_cancel h₂).trans (h.ends a))

/-- `filedup` of a file that `v` has; the reference goes to a descriptor of `t`. -/
theorem FileInv.filedup {fd : Fin nofile} {v : τ} (h : FileInv s) (hv : 0 < (s.proc v).held f)
    (hfd : (s.proc t).ofile fd = none)
    (hone : ∀ u, u ≠ t → f ∈ (s.proc u).point.hand → (s.file f).ref ≠ 1)
    (hpoint : ((s.filedup f).setFd t fd (some f)).PointOk
      ⟨Function.update (s.proc t).ofile fd (some f), (s.proc t).point⟩)
    (hparent : ∀ u k, u ≠ t → (s.proc u).point = .forking t k → fd.val < k) :
    FileInv ((s.filedup f).setFd t fd (some f)) := by
  have hpos := h.ref_pos hv
  have hdup : s.filedup f = s.setFile f { s.file f with ref := (s.file f).ref + 1 } := by
    rw [FileState.filedup, if_neg (by omega)]
  rw [hdup] at hpoint ⊢
  set s' := (s.setFile f { s.file f with ref := (s.file f).ref + 1 }).setFd t fd (some f) with hs'
  have hother {f' : Fin n} (e : f' ≠ f) : s'.file f' = s.file f' := Function.update_of_ne e ..
  have hself : s'.file f = { s.file f with ref := (s.file f).ref + 1 } := Function.update_self ..
  have hkept (f' : Fin n) : s.Kept s' f' := by
    rcases eq_or_ne f' f with rfl | hff
    · refine ⟨?_, ?_, ?_⟩ <;> rw [hself]
    · exact .of_eq (hother hff)
  refine h.move (q := ⟨Function.update (s.proc t).ofile fd (some f), (s.proc t).point⟩) rfl
    (fun f' => ?_) (fun f' e => ?_) (fun f' p => ?_) (fun a => ?_) h.live (fun u f' _ _ => hkept f')
    (fun u hu f' hf' e => ?_) hpoint (fun u k hu hc he hnone => ⟨he, fun fd' hk => ?_⟩)
    (fun c k hc u j hu hcu => hu (h.apart u t c j k hcu hc)) h.sound
  · show (s'.file f').ref + (users (s.proc t).ofile f' + (s.proc t).point.hand.count f') =
      (s.file f').ref + (users (Function.update (s.proc t).ofile fd (some f)) f' +
        (s.proc t).point.hand.count f')
    rw [users_put hfd]
    rcases eq_or_ne f' f with rfl | hff
    · rw [hself, if_pos rfl]
      dsimp only
      omega
    · rw [hother hff, if_neg hff.symm]
      omega
  · rcases eq_or_ne f' f with rfl | hff
    · rw [hself] at e
      cases e
    · rw [hother hff] at e ⊢
      exact h.blank f' e
  · rw [(hkept f').type, (hkept f').readable, (hkept f').writable]
    exact h.mode f' p
  · have h₁ := endUsers_setProc (s := s.setFile f { s.file f with ref := (s.file f).ref + 1 }) (t := t)
      (q := ⟨Function.update (s.proc t).ofile fd (some f), (s.proc t).point⟩) a
    have h₂ := endUsers_setFile (s := s) (f := f)
      (x := { s.file f with ref := (s.file f).ref + 1 }) a
    exact (Nat.add_right_cancel h₁).trans ((Nat.add_right_cancel h₂).trans (h.ends a))
  · rcases eq_or_ne f' f with rfl | hff
    · exact absurd e (hone u hu hf')
    · rw [hother hff]
      exact e
  · have hlt := hparent u k hu hc
    show Function.update (s.proc t).ofile fd (some f) fd' = none
    rw [Function.update_of_ne, hnone fd' hk]
    rintro rfl
    omega

/-- The end of a `fileclose`, with a reference less. -/
theorem FileInv.dropRef {x : File π ι} {p : FilePoint τ (Fin n) π} (h : FileInv s)
    (hhand : ∀ f', p.hand.count f' + (if f = f' then 1 else 0) = (s.proc t).point.hand.count f')
    (hx : x.ref + 1 = (s.file f).ref) (hxr : x.readable = (s.file f).readable)
    (hxw : x.writable = (s.file f).writable)
    (htype : x.ref = 0 ∧ x.type = .none ∨ x.ref ≠ 0 ∧ x.type = (s.file f).type)
    (hends : ∀ a, (if x.pipeEnd = some a then 1 else 0) +
      (if FileProc.closes ⟨(s.proc t).ofile, p⟩ = some a then 1 else 0) =
        (if (s.file f).pipeEnd = some a then 1 else 0) + if (s.proc t).closes = some a then 1 else 0)
    (hpoint : ((s.setFile f x).goto t p).PointOk ⟨(s.proc t).ofile, p⟩)
    (ht : (s.proc t).point ≠ .embryo) (hfork : ∀ c k, p ≠ .forking c k) :
    FileInv ((s.setFile f x).goto t p) := by
  set s' := (s.setFile f x).goto t p with hs'
  have hother {f' : Fin n} (e : f' ≠ f) : s'.file f' = s.file f' := Function.update_of_ne e ..
  have hself : s'.file f = x := Function.update_self ..
  have hheld : 0 < (s.proc t).held f := by
    refine (s.proc t).held_pos_of_hand (List.count_pos_iff.mp ?_)
    have := hhand f
    rw [if_pos rfl] at this
    omega
  -- the others see the entry only if it stays
  have hstay {u : τ} (hu : u ≠ t) (hfu : 0 < (s.proc u).held f) : x.ref ≠ 0 := by
    have := h.ref_two hu hfu hheld
    omega
  refine h.move rfl (fun f' => ?_) (fun f' e => ?_) (fun f' q e => ?_) (fun a => ?_) h.live
    (fun u f' hu hfu => ?_) (fun u hu f' hf' e => ?_) hpoint
    (fun u k _ hc => absurd hc (h.no_parent ht u k)) (fun c k e => absurd e (hfork c k)) h.sound
  · have hcount := hhand f'
    show (s'.file f').ref + (users (s.proc t).ofile f' + (s.proc t).point.hand.count f') =
      (s.file f').ref + (users (s.proc t).ofile f' + p.hand.count f')
    rcases eq_or_ne f' f with rfl | hff
    · rw [if_pos rfl] at hcount
      rw [hself]
      omega
    · rw [if_neg hff.symm] at hcount
      rw [hother hff]
      omega
  · rcases eq_or_ne f' f with rfl | hff
    · rw [hself] at e ⊢
      rcases htype with ⟨-, htype⟩ | ⟨hne, -⟩
      · exact htype
      · exact absurd e hne
    · rw [hother hff] at e ⊢
      exact h.blank f' e
  · rcases eq_or_ne f' f with rfl | hff
    · rw [hself] at e ⊢
      rw [hxr, hxw]
      rcases htype with ⟨-, htype⟩ | ⟨-, htype⟩
      · rw [htype] at e
        cases e
      · exact h.mode f' q (htype ▸ e)
    · rw [hother hff] at e ⊢
      exact h.mode f' q e
  · have h₁ := endUsers_setProc (s := s.setFile f x) (t := t) (q := ⟨(s.proc t).ofile, p⟩) a
    have h₂ := endUsers_setFile (s := s) (f := f) (x := x) a
    have h₃ := hends a
    have h₄ : s'.endUsers a = s.endUsers a := by
      change s'.endUsers a + (if (s.proc t).closes = some a then 1 else 0) = _ at h₁
      omega
    exact h₄.trans (h.ends a)
  · rcases eq_or_ne f' f with rfl | hff
    · rcases htype with ⟨h0, -⟩ | ⟨-, htype⟩
      · exact absurd h0 (hstay hu hfu)
      · refine ⟨?_, ?_, ?_⟩ <;> rw [hself]
        · exact htype
        · exact hxr
        · exact hxw
    · exact .of_eq (hother hff)
  · rcases eq_or_ne f' f with rfl | hff
    · have := hstay hu ((s.proc u).held_pos_of_hand hf')
      omega
    · rw [hother hff]
      exact e

theorem FileInv.fileclose {l : List (Fin n)} {k : FileCont} (h : FileInv s)
    (ht : (s.proc t).point = .closing (f :: l) k) : FileInv (s.fileclose t f l k) := by
  have hheld : 0 < (s.proc t).held f :=
    (s.proc t).held_pos_of_hand (by rw [ht]; exact List.mem_cons_self)
  have hpos := h.ref_pos hheld
  have hk : k.Ok (s.proc t).ofile := by
    have hp := h.points t
    rw [FileState.PointOk, ht] at hp
    exact hp
  have hcount (f' : Fin n) : l.count f' + (if f = f' then 1 else 0) = (f :: l).count f' := by
    rw [List.count_cons]
    simp only [beq_iff_eq]
  have hnone : (s.proc t).closes = none := by rw [FileProc.closes, ht]
  have hcl : (s.proc t).point ≠ .embryo := by
    rw [ht]
    exact fun e => by cases e
  rw [FileState.fileclose, if_neg (by omega)]
  split_ifs with hmany
  · refine h.dropRef (fun f' => ht ▸ hcount f') ?_ rfl rfl (Or.inr ⟨?_, rfl⟩) (fun a => ?_) hk hcl
      (fun _ _ e => by cases e)
    · exact Nat.sub_add_cancel hpos
    · exact Nat.sub_ne_zero_of_lt hmany
    · rw [hnone]
      rfl
  · have hone : 0 + 1 = (s.file f).ref := by omega
    rcases hty : (s.file f).type with - | p | i
    · refine h.dropRef (fun f' => ht ▸ hcount f') hone rfl rfl (Or.inl ⟨rfl, rfl⟩) (fun a => ?_) hk hcl
        (fun _ _ e => by cases e)
      rw [hnone, File.pipeEnd, File.pipeEnd, hty]
      rfl
    · refine h.dropRef (fun f' => ht ▸ hcount f') hone rfl rfl (Or.inl ⟨rfl, rfl⟩) (fun a => ?_) hk hcl
        (fun _ _ e => by cases e)
      rw [hnone, File.pipeEnd, File.pipeEnd, hty]
      simp [FileProc.closes]
    · refine h.dropRef (fun f' => ht ▸ hcount f') hone rfl rfl (Or.inl ⟨rfl, rfl⟩) (fun a => ?_) hk hcl
        (fun _ _ e => by cases e)
      rw [hnone, File.pipeEnd, File.pipeEnd, hty]
      rfl

end SystemsPortfolio.Xv6
