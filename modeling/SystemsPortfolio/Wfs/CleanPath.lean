/-
SystemsPortfolio/Wfs/CleanPath.lean

What `clean_path` does to names.

`strip_ansi_codes` is the one-pass removal of escape sequences, cut at the size of the
output (`stripAnsiCodes_eq`).  Two questions about it:

* Does a second pass change anything?  It does if and only if the string rejoins the start
  of a sequence (`strip_again_iff`).  A file whose path does so is stored under a name that
  `clean_path` destroys, so that no lookup finds it again (`Created.found_iff`).
* Does a coloured listing lead back to the files?  The decoration that `wfs_readdir` puts
  around a name is a sequence on either side, and `clean_path` takes out just these, in a
  whole path too (`strip_absolutePath`).
-/
import SystemsPortfolio.Lib.Escapes
import SystemsPortfolio.Wfs.Walks

namespace SystemsPortfolio.Wfs

open Escapes NameTree

variable {s : Fs} {d d' : Disk} {path name : List UInt8} {p idx i n : Nat}

/-- The escape sequences of `strip_ansi_codes`: from `ESC [` to `m`. -/
def ansi : Marks UInt8 where
  esc := 27
  opn := 91
  fin := 109
  esc_ne_opn := by decide
  esc_ne_fin := by decide
  opn_ne_fin := by decide

/-! ### `strip_ansi_codes` -/

theorem stripLoop_eq (inEsc : Bool) (inp : List UInt8) (room : Nat) :
    stripLoop inEsc inp room = (strip ansi inEsc inp).take room := by
  fun_induction stripLoop inEsc inp room with
  | case1 => exact List.take_nil.symm
  | case2 => rfl
  | case3 rest room ih => exact ih.trans (congrArg _ (strip_opening (m := ansi) rest).symm)
  | case4 c rest room hno ih =>
      have hplain : c = ansi.esc → rest.head? ≠ some ansi.opn := fun hc hhead =>
        hno rest.tail hc (List.cons_head?_tail hhead).symm
      rw [strip_plain hplain, ih, List.take_succ_cons]
  | case5 => exact List.take_nil.symm
  | case6 rest room ih => rw [ih, strip, if_pos (show 109 = ansi.fin from rfl)]
  | case7 c rest room hc ih => rw [ih, strip, if_neg (show ¬ c = ansi.fin from hc)]

/-- Into an output that is longer than the input, every sequence goes and nothing else. -/
theorem stripAnsiCodes_eq (h : path.length < n) : stripAnsiCodes path n = strip ansi false path := by
  have hle := (strip_sublist (m := ansi) false path).length_le
  rw [stripAnsiCodes, stripLoop_eq, List.take_of_length_le (by omega)]

theorem cleanPath_eq (h : path.length < 4096) :
    cleanPath path = if strip ansi false path = [] then [slash] else strip ansi false path := by
  rw [cleanPath, stripAnsiCodes_eq h]

/-- A second pass changes nothing if and only if the first one rejoined no sequence. -/
theorem strip_again_iff (h : path.length < n) :
    (stripAnsiCodes (stripAnsiCodes path n) n = stripAnsiCodes path n ↔ ¬ Rejoins ansi path) ∧
      (Opening ansi (stripAnsiCodes path n) ↔ Rejoins ansi path) := by
  have hle := (strip_sublist (m := ansi) false path).length_le
  rw [stripAnsiCodes_eq h, stripAnsiCodes_eq (by omega), strip_eq_self_iff, opening_strip_iff]
  exact ⟨Iff.rfl, Iff.rfl⟩

/-! ### The second pass over a stored name -/

/-- Slashes apart, the tokens of a path are all of it. -/
theorem flatten_strtok (q : List UInt8) : (strtok q).flatten = q.filter (· ≠ slash) := by
  have hparts : ∀ l : List (List UInt8), (l.filter (· ≠ [])).flatten = l.flatten := by
    intro l
    induction l with
    | nil => rfl
    | cons a l ih =>
        rw [List.filter_cons]
        split_ifs with ha
        · rw [List.flatten_cons, List.flatten_cons, ih]
        · have hnil : a = [] := by simpa using ha
          rw [List.flatten_cons, hnil, ih]
          rfl
  rw [strtok, hparts]
  induction q with
  | nil => simp
  | cons c q ih =>
      rw [List.splitOn_cons_eq_if_modifyHead]
      rcases e : q.splitOn slash with - | ⟨head, rest⟩
      · exact absurd e (List.splitOn_ne_nil slash q)
      rw [e] at ih
      by_cases hc : c = slash
      · simpa [hc] using ih
      · simpa [hc] using ih

/-- Two paths with the same tokens have the same bytes other than slashes. -/
theorem count_eq_of_strtok {a b : List UInt8} (h : strtok a = strtok b) {c : UInt8} (hc : c ≠ slash) :
    a.count c = b.count c := by
  have hflat := congrArg List.flatten h
  rw [flatten_strtok, flatten_strtok] at hflat
  have hcount := congrArg (List.count c) hflat
  rwa [List.count_filter (by simpa using hc), List.count_filter (by simpa using hc)] at hcount

/-- `clean_path` of its own result. -/
theorem cleanPath_cleanPath (h : path.length < 4096) (hre : ¬ Rejoins ansi path) :
    cleanPath (cleanPath path) = cleanPath path := by
  have hle := (strip_sublist (m := ansi) false path).length_le
  rw [cleanPath_eq h]
  split_ifs with hnil
  · decide
  · rw [cleanPath_eq (by omega), strip_eq_self_iff.mpr (mt opening_strip_iff.mp hre), if_neg hnil]

/-- If `clean_path` rejoins a sequence, a second pass takes an `ESC` out. -/
theorem count_cleanPath_lt (h : path.length < 4096) (hre : Rejoins ansi path) :
    (cleanPath (cleanPath path)).count ansi.esc < (cleanPath path).count ansi.esc := by
  have hle := (strip_sublist (m := ansi) false path).length_le
  have hopen : Opening ansi (strip ansi false path) := opening_strip_iff.mpr hre
  have hlt := count_strip_lt hopen
  have hne : strip ansi false path ≠ [] := by
    intro hnil
    rw [hnil] at hlt
    simp at hlt
  rw [cleanPath_eq h, if_neg hne, cleanPath_eq (by omega)]
  split_ifs with hnil
  · rw [hnil] at hlt
    exact hlt
  · exact hlt

theorem cleanPath_slashes_iff (h : path.length < 4096) :
    (∀ c ∈ cleanPath path, c = slash) ↔ Bare ansi slash path := by
  rw [cleanPath_eq h, ← strip_eq_iff_bare (show slash ≠ ansi.esc by decide)]
  split_ifs with hnil
  · simp [hnil]
  · rfl

section created

variable {s' : Fs} {dir : List UInt8} {isd : Bool}

/-- The walk to a new inode. -/
theorem Created.walk (h : Base s.toDisk) (hc : Created s.toDisk s'.toDisk p idx name i isd)
    (hpath : ∀ c ∈ path, c ≠ 0) (hs : splitPath (cleanPath path) = .ok (dir, name))
    (hpd : parentDir s dir = .ok p) :
    (Wfs.space s'.toDisk).Walk 0 (strtok dir) p ∧
      (Wfs.space s'.toDisk).Walk 0 (strtok dir ++ [name]) i := by
  have hcomps : ∀ comp ∈ strtok dir, ∀ c ∈ comp, c ≠ 0 := by
    intro comp hcomp c hmem
    rcases splitPath_strtok hs with ⟨-, hnil⟩ | ⟨-, htok⟩
    · rw [hnil] at hcomp
      cases hcomp
    · have hin : comp ∈ strtok (cleanPath path) := by
        rw [htok]
        exact List.mem_append_left _ hcomp
      exact cleanPath_nul_free hpath c (mem_of_mem_strtok hin hmem)
  have hparent := (parentDir_eq_ok hpd).1
  rw [getInodeFromPath_eq h] at hparent
  have hold := walk_walk h hcomps .here hparent
  have hup : (Wfs.space s'.toDisk).Walk 0 (strtok dir) p := by
    rw [hc.space]
    exact hold.mono fun _ _ _ _ he => Or.inr he
  refine ⟨hup, hup.step (k := idx) ?_⟩
  rw [hc.space]
  exact Or.inl ⟨rfl, rfl, rfl, rfl⟩

/-- A new inode is found again through `clean_path` if and only if its path rejoins no
sequence and has more to it than slashes and sequences. -/
theorem Created.found_iff (h : Base s.toDisk) (hc : Created s.toDisk s'.toDisk p idx name i isd)
    (hpath : ∀ c ∈ path, c ≠ 0) (hlen : path.length < 4096)
    (hs : splitPath (cleanPath path) = .ok (dir, name)) (hpd : parentDir s dir = .ok p) :
    getInodeFromPath s' (cleanPath (cleanPath path)) = .ok i ↔
      ¬ Rejoins ansi path ∧ ¬ Bare ansi slash path := by
  obtain ⟨-, hnew⟩ := hc.walk h hpath hs hpd
  rw [getInodeFromPath_iff hc.base (cleanPath_nul_free (cleanPath_nul_free hpath)),
    ← cleanPath_slashes_iff hlen]
  constructor
  · intro hw
    have htok : strtok (cleanPath (cleanPath path)) = strtok dir ++ [name] :=
      hc.base.walk_unique hw hnew
    have hleaf : ¬ ∀ c ∈ cleanPath path, c = slash := by
      -- a path of slashes leads to the root
      intro hall
      rw [strtok_of_slashes fun c hmem => (mem_of_mem_cleanPath hmem).elim id (hall c)] at htok
      simp at htok
    refine ⟨fun hre => ?_, hleaf⟩
    have htok' : strtok (cleanPath path) = strtok dir ++ [name] := by
      rcases splitPath_strtok hs with ⟨hall, -⟩ | ⟨-, htok'⟩
      · exact absurd hall hleaf
      · exact htok'
    -- the second pass would have kept every `ESC`
    have hcount := count_eq_of_strtok (htok.trans htok'.symm) (show ansi.esc ≠ slash by decide)
    exact (count_cleanPath_lt hlen hre).ne hcount
  · rintro ⟨hre, hleaf⟩
    rw [cleanPath_cleanPath hlen hre]
    rcases splitPath_strtok hs with ⟨hall, -⟩ | ⟨-, htok⟩
    · exact absurd hall hleaf
    · rwa [htok]

/-- `wfs_readdir` lists the name of a new inode. -/
theorem Created.listed (hc : Created s.toDisk s'.toDisk p idx name i isd) {env : Env}
    (hls : env.isLs = false) {q : List UInt8} (hq : getInodeFromPath s' (cleanPath q) = .ok p) :
    name ∈ (wfsReaddir s' q env).2.1 := by
  have he : (Wfs.space s'.toDisk).entry p idx name i := by
    rw [hc.space]
    exact Or.inl ⟨rfl, rfl, rfl, rfl⟩
  rw [((hc.base.dirOk he.1).wfsReaddir_eq hls hq).2]
  refine List.mem_cons_of_mem _ (List.mem_cons_of_mem _ (List.mem_filterMap.mpr ⟨idx, ?_, ?_⟩))
  · exact List.mem_range.mpr he.2.1
  · rw [he.2.2]
    rfl

/-- What a successful `wfs_mknod` or `wfs_mkdir` has done. -/
theorem created_of_success (h : Base s.toDisk) (hpath : ∀ c ∈ path, c ≠ 0) {mode : BitVec 32}
    {env : Env} (hok : wfsMknod s path mode env = (0, s') ∨ wfsMkdir s path mode env = (0, s')) :
    ∃ dir name p idx i isd, splitPath (cleanPath path) = .ok (dir, name) ∧
      parentDir s dir = .ok p ∧ Created s.toDisk s'.toDisk p idx name i isd := by
  rcases hok with hok | hok
  · have hcases : (wfsMknod s path mode env).1 < 0 ∧ _ ∨ _ := wfsMknod_cases h hpath
    rw [hok] at hcases
    obtain ⟨dir, name, p, idx, i, hs, hpd, hc⟩ := (hcases.resolve_left fun hneg => by simp at hneg).2
    exact ⟨dir, name, p, idx, i, false, hs, hpd, hc⟩
  · have hcases : (wfsMkdir s path mode env).1 < 0 ∧ _ ∨ _ := wfsMkdir_cases h hpath
    rw [hok] at hcases
    obtain ⟨dir, name, p, idx, i, hs, hpd, hc⟩ := (hcases.resolve_left fun hneg => by simp at hneg).2
    exact ⟨dir, name, p, idx, i, true, hs, hpd, hc⟩

end created

/-- `strip_ansi_codes` leaves its own output alone, and the output is free of `ESC [`, if and
only if the input rejoins no sequence.  After a successful `wfs_mknod` or `wfs_mkdir` in a
reachable state `wfs_readdir` lists the new name in its directory; it is found again through
`clean_path` if and only if moreover the path has more to it than slashes and sequences. -/
theorem clean_again_iff (str : CString) (hn : str.bytes.length < n) :
    (stripAnsiCodes (stripAnsiCodes str.bytes n) n = stripAnsiCodes str.bytes n ↔
      ¬ Rejoins ansi str.bytes) ∧
    (¬ Opening ansi (stripAnsiCodes str.bytes n) ↔ ¬ Rejoins ansi str.bytes) ∧
    ∀ d ops mode env s', MkfsImage d → str.bytes.length < 4096 →
      (wfsMknod (run (mount d) ops) str.bytes mode env = (0, s') ∨
        wfsMkdir (run (mount d) ops) str.bytes mode env = (0, s')) →
      ∃ dir name p i, splitPath (cleanPath str.bytes) = .ok (dir, name) ∧
        ¬ Allocated (run (mount d) ops).toDisk i ∧
        (∃ idx, (space s'.toDisk).entry p idx name i) ∧
        (∀ q env, env.isLs = false → getInodeFromPath s' (cleanPath q) = .ok p →
          name ∈ (wfsReaddir s' q env).2.1) ∧
        (getInodeFromPath s' (cleanPath (cleanPath str.bytes)) = .ok i ↔
          ¬ Rejoins ansi str.bytes ∧ ¬ Bare ansi slash str.bytes) := by
  obtain ⟨hagain, hopen⟩ := strip_again_iff hn
  refine ⟨hagain, not_congr hopen, fun d ops mode env s' hd hlen hok => ?_⟩
  have hb := base_run hd ops
  obtain ⟨dir, name, p, idx, i, isd, hs, hpd, hc⟩ := created_of_success hb str.nul_free hok
  refine ⟨dir, name, p, i, hs, hc.fresh, ⟨idx, ?_⟩, fun q env hls hq => hc.listed hls hq,
    hc.found_iff hb str.nul_free hlen hs hpd⟩
  rw [hc.space]
  exact Or.inl ⟨rfl, rfl, rfl, rfl⟩

/-- The file "/f" on the small image. -/
theorem clean_again_iff_file :
    stripAnsiCodes (stripAnsiCodes smallPath.bytes 3) 3 = stripAnsiCodes smallPath.bytes 3 ∧
    ∃ i, ¬ Allocated smallDisk i ∧
      getInodeFromPath (wfsMknod (mount smallDisk) smallPath.bytes 0o100644#32 plainEnv).2
        (cleanPath (cleanPath smallPath.bytes)) = .ok i := by
  have h := clean_again_iff smallPath (n := 3) (by decide)
  refine ⟨h.1.mpr (by decide), ?_⟩
  have hok : wfsMknod (run (mount smallDisk) []) smallPath.bytes 0o100644#32 plainEnv =
      (0, (wfsMknod (mount smallDisk) smallPath.bytes 0o100644#32 plainEnv).2) :=
    Prod.ext (by decide +kernel) rfl
  obtain ⟨dir, name, p, i, -, hfree, -, -, hfound⟩ :=
    h.2.2 smallDisk [] _ _ _ smallDisk_mkfs.mkfsImage (by decide) (Or.inl hok)
  have hbare : ¬ Bare ansi slash smallPath.bytes :=
    mt (strip_eq_iff_bare (show slash ≠ ansi.esc by decide)).mpr (by decide)
  exact ⟨i, hfree, hfound.mpr ⟨by decide, hbare⟩⟩

/-- The path `/ ESC ESC [ m [`. -/
def nestedPath : CString := ⟨[47, 27, 27, 91, 109, 91], by simp⟩

/-- Taking `ESC [ m` out of the middle leaves `ESC [`, which a second pass takes out too.  The
file is made, and listed as `ESC [`, but `clean_path` of its path is "/". -/
theorem clean_again_nested :
    stripAnsiCodes nestedPath.bytes 7 = [47, 27, 91] ∧ stripAnsiCodes [47, 27, 91] 7 = [47] ∧
    (wfsMknod (mount smallDisk) nestedPath.bytes 0o100644#32 plainEnv).1 = 0 ∧
    (wfsReaddir (wfsMknod (mount smallDisk) nestedPath.bytes 0o100644#32 plainEnv).2 [47]
      plainEnv).2.1 = [[46], [46, 46], [27, 91]] ∧
    getInodeFromPath (wfsMknod (mount smallDisk) nestedPath.bytes 0o100644#32 plainEnv).2
      [47, 27, 91] = .ok 1 ∧
    getInodeFromPath (wfsMknod (mount smallDisk) nestedPath.bytes 0o100644#32 plainEnv).2
      (cleanPath [47, 27, 91]) = .ok 0 := by
  decide +kernel

/-! ### Coloured listings -/

/-- What `wfs_readdir` prints after a decorated name. -/
def colorReset : List UInt8 := [27, 91, 48, 109]

/-- `snprintf(decorated, sizeof(decorated), "%s%s%s", ..)` of `wfs_readdir`, into
`char decorated[MAX_NAME + 64]`. -/
def decorated (color : Color) (name : List UInt8) : List UInt8 :=
  (colorAnsi color ++ name ++ colorReset).take 91

/-- A name as it is listed, plain for the colour `none`. -/
def shown (entry : List UInt8 × Color) : List UInt8 :=
  if entry.2 = .none then entry.1 else decorated entry.2 entry.1

/-- The colour in which `wfs_readdir` lists entry `idx`. -/
def listedColor (s : Fs) (i idx : Nat) (env : Env) : Color :=
  match retrieveInode s (entryNum s.toDisk i idx) with
  | none => .none
  | some child => if env.isLs then (s.inodes child).color else .none

/-- The path that leads from the root along the names. -/
def absolutePath (names : List (List UInt8)) : List UInt8 := slash :: [slash].intercalate names

/-- A name as it is stored in a directory, and free of `ESC [`. -/
structure PlainName (name : List UInt8) : Prop where
  pos : 1 ≤ name.length
  short : name.length ≤ 27
  slash_free : slash ∉ name
  nul_free : 0 ∉ name
  plain : ¬ Opening ansi name

theorem shown_eq (s : Fs) (num : Int) (name : List UInt8) (env : Env) :
    (match retrieveInode s num with
      | none => name
      | some child =>
          if env.isLs ∧ (s.inodes child).color ≠ .none then
            (colorAnsi (s.inodes child).color ++ name ++ [27, 91, 48, 109]).take 91
          else name) =
      shown (name, match retrieveInode s num with
        | none => .none
        | some child => if env.isLs then (s.inodes child).color else .none) := by
  rcases retrieveInode s num with - | child
  · rfl
  by_cases hls : env.isLs = true
  · by_cases hcolor : (s.inodes child).color = .none
    · simp [shown, hls, hcolor]
    · simp [shown, hls, hcolor, decorated, colorReset]
  · simp [shown, hls]

theorem listedColor_def : listedColor = fun s i idx env =>
    match retrieveInode s (entryNum s.toDisk i idx) with
    | none => .none
    | some child => if env.isLs then (s.inodes child).color else .none := rfl

/-- `wfs_readdir` hands out the name of an entry, decorated in the colour of its inode for
`ls`. -/
theorem listedName_eq_shown (s : Fs) (i idx : Nat) (env : Env) :
    listedName s i idx env =
      shown ((entryName s.toDisk i idx).takeWhile (· ≠ 0), listedColor s i idx env) := by
  rw [listedName_def, listedColor_def]
  exact shown_eq s _ _ env

theorem colorAnsi_isEscape {color : Color} (h : color ≠ .none) : IsEscape ansi (colorAnsi color) := by
  refine ⟨((colorAnsi color).drop 2).dropLast, ?_, ?_⟩
  · cases color <;> decide
  · cases color with
    | none => exact absurd rfl h
    | _ => rfl

theorem colorReset_isEscape : IsEscape ansi colorReset := ⟨[48], by decide, rfl⟩

theorem length_colorAnsi_le (color : Color) : (colorAnsi color).length ≤ 11 := by
  cases color <;> decide

/-- The decoration buffer holds every decorated name. -/
theorem PlainName.decorated_eq (h : PlainName name) (color : Color) :
    decorated color name = colorAnsi color ++ name ++ colorReset := by
  have hlen := length_colorAnsi_le color
  have hname := h.short
  refine List.take_of_length_le ?_
  simp only [List.length_append, colorReset, List.length_cons, List.length_nil]
  omega

/-- A listed name is complete, and without its sequences it is the plain name. -/
theorem PlainName.shown_spec {entry : List UInt8 × Color} (h : PlainName entry.1) :
    Ended ansi (shown entry) ∧ strip ansi false (shown entry) = entry.1 := by
  obtain ⟨name, color⟩ := entry
  have hname : Ended ansi name := ended_of_not_opening h.plain
  have hself : strip ansi false name = name := strip_eq_self_iff.mpr h.plain
  by_cases hcolor : color = .none
  · rw [shown, if_pos hcolor]
    exact ⟨hname, hself⟩
  have hreset : colorReset.head? ≠ some ansi.opn := by decide
  have hend : Ended ansi colorReset := ended_nil.escape colorReset_isEscape
  rw [shown, if_neg hcolor, h.decorated_eq, List.append_assoc]
  refine ⟨(hname.append hend hreset).escape (colorAnsi_isEscape hcolor), ?_⟩
  rw [(colorAnsi_isEscape hcolor).strip, strip_append hname hreset, hself]
  exact List.append_nil name

theorem absolutePath_cons (name : List UInt8) (names : List (List UInt8)) :
    absolutePath (name :: names) = slash :: name ++ if names = [] then [] else absolutePath names := by
  rcases names with - | ⟨next, names⟩
  · simp [absolutePath]
  · simp [absolutePath, List.intercalate_cons_cons]

/-- Taking the sequences out of a path of listed names. -/
theorem strip_absolutePath (es : List (List UInt8 × Color)) (h : ∀ e ∈ es, PlainName e.1) :
    strip ansi false (absolutePath (es.map shown)) = absolutePath (es.map Prod.fst) := by
  induction es with
  | nil => decide
  | cons e es ih =>
      obtain ⟨hended, hstrip⟩ := (h e List.mem_cons_self).shown_spec
      have hrest := ih fun e' he' => h e' (List.mem_cons_of_mem _ he')
      have hslash : ∀ l, slash = ansi.esc → l ≠ some ansi.opn := fun _ hc => absurd hc (by decide)
      rw [List.map_cons, List.map_cons, absolutePath_cons, absolutePath_cons]
      -- a slash ends what came before it, and starts no sequence
      rw [strip_append (hended.cons (hslash _)), strip_plain (hslash _), hstrip]
      · congr 1
        rcases es with - | ⟨e', es⟩
        · rfl
        · exact hrest
      · rcases es with - | ⟨e', es⟩
        · simp
        · show some slash ≠ some ansi.opn
          decide

/-- Coloured listings lead back to the same file: `clean_path` of a path of listed names, each
plain or decorated by `wfs_readdir`, is the path of the plain names, and no decorated name is
truncated. -/
theorem cleanPath_listed (es : List (List UInt8 × Color)) (h : ∀ e ∈ es, PlainName e.1) :
    (∀ n, (absolutePath (es.map Prod.fst)).length < n →
      stripAnsiCodes (absolutePath (es.map shown)) n = absolutePath (es.map Prod.fst)) ∧
    ((absolutePath (es.map Prod.fst)).length < 4096 →
      cleanPath (absolutePath (es.map shown)) = absolutePath (es.map Prod.fst)) ∧
    (∀ e ∈ es, e.2 ≠ .none → shown e = colorAnsi e.2 ++ e.1 ++ colorReset) ∧
    ∀ s i idx env, listedName s i idx env =
      shown ((entryName s.toDisk i idx).takeWhile (· ≠ 0), listedColor s i idx env) := by
  have hstrip : ∀ n, (absolutePath (es.map Prod.fst)).length < n →
      stripAnsiCodes (absolutePath (es.map shown)) n = absolutePath (es.map Prod.fst) := by
    intro n hn
    rw [stripAnsiCodes, stripLoop_eq, strip_absolutePath es h, List.take_of_length_le (by omega)]
  refine ⟨hstrip, fun hn => ?_, fun e he hcolor => ?_, listedName_eq_shown⟩
  · rw [cleanPath, hstrip 4096 hn]
    exact if_neg (List.cons_ne_nil _ _)
  · rw [shown, if_neg hcolor, (h e he).decorated_eq]

/-- A red `a` that holds a plain name `[ESC`. -/
theorem cleanPath_listed_red :
    cleanPath (absolutePath [[27, 91, 51, 49, 109, 97, 27, 91, 48, 109], [91, 27]]) =
      [47, 97, 47, 91, 27] := by
  have hnames : ∀ e ∈ [(([97] : List UInt8), Color.red), ([91, 27], Color.none)], PlainName e.1 := by
    intro e he
    simp only [List.mem_cons, List.not_mem_nil, or_false] at he
    rcases he with rfl | rfl
    · exact ⟨by decide, by decide, by decide, by decide, by decide⟩
    · exact ⟨by decide, by decide, by decide, by decide, by decide⟩
  exact (cleanPath_listed _ hnames).2.1 (by decide)

end SystemsPortfolio.Wfs
