import Splice.Lib.FileEdits
import Splice.Lib.Stdio

/-!
A directory as a partial map: from the names on the way down to a file to the bytes in it. A call
that does its work changes the map at one place. The directories in between are known only as far
as where there may be one.
-/

namespace Splice.Lib.FileSystem

/-! ## Names in order -/

/-- The first two names that differ come in this order. -/
def Before (a b : List Name) : Prop :=
  ∃ u n r n' r', a = u ++ n :: r ∧ b = u ++ n' :: r' ∧ compare n n' = .lt

theorem compare_append_ne_lt (c s : Name) : compare (c ++ s) c ≠ .lt := by
  induction c with
  | nil =>
      cases s with
      | nil => decide
      | cons x s => simp
  | cons x c ih =>
      have step : compare (x :: c ++ s) (x :: c) = (compare x x).then (compare (c ++ s) c) :=
        List.compareLex_cons_cons
      have same : compare x x = .eq := Std.ReflCmp.compare_self
      rw [step, same]
      exact ih

theorem compare_self_ne_lt (c : Name) : compare c c ≠ .lt := by
  have := compare_append_ne_lt c []
  rwa [List.append_nil] at this

namespace Before
variable {a b k : List Name} {c : Name}

theorem not_front (h : Before a b) : ¬ a <+: b := by
  obtain ⟨u, n, r, n', r', rfl, rfl, less⟩ := h
  intro hp
  rw [List.prefix_append_right_inj] at hp
  rw [(List.cons_prefix_cons.mp hp).1] at less
  exact compare_self_ne_lt _ less

theorem not_extends (h : Before a b) : ¬ b <+: a := by
  obtain ⟨u, n, r, n', r', rfl, rfl, less⟩ := h
  intro hp
  rw [List.prefix_append_right_inj] at hp
  rw [(List.cons_prefix_cons.mp hp).1] at less
  exact compare_self_ne_lt _ less

theorem ne (h : Before a b) : a ≠ b := by
  rintro rfl
  exact h.not_front List.prefix_rfl

/-- What comes before a name is nothing that starts with it. -/
theorem beside (h : Before a (k ++ [c])) (s : Name) : ¬ k ++ [c ++ s] <+: a := by
  obtain ⟨u, n, r, n', r', rfl, hb, less⟩ := h
  intro hp
  rcases List.eq_nil_or_concat' r' with rfl | ⟨r', x, rfl⟩
  · obtain ⟨rfl, last⟩ := List.append_inj' hb rfl
    obtain rfl := List.singleton_inj.mp last
    rw [List.prefix_append_right_inj] at hp
    rw [← (List.cons_prefix_cons.mp hp).1] at less
    exact compare_append_ne_lt c s less
  · rw [← List.cons_append, ← List.append_assoc] at hb
    obtain ⟨rfl, -⟩ := List.append_inj' hb rfl
    rw [List.append_assoc, List.prefix_append_right_inj, List.cons_append] at hp
    rw [(List.cons_prefix_cons.mp hp).1] at less
    exact compare_self_ne_lt _ less

end Before

/-! ## What is below a directory -/

/-- The path `t` names the directory `d`; the files below it are those of `T`, and a directory
below it is one of `D`. -/
structure Shows (t : List UInt8) (d : Path) (T : List Name → Option (List UInt8))
    (D : List Name → Prop) (fs : FileSystem) : Prop where
  at_ : fs.resolve t = some d
  base : fs.node d = some .dir
  here : fs.node fs.cwd = some .dir
  file : ∀ {k : List Name} {i : Nat}, fs.node (k.reverse ++ d) = some (.file i) →
    T k = some (fs.data i)
  there : ∀ {k : List Name} {b : List UInt8}, T k = some b →
    ∃ i, fs.node (k.reverse ++ d) = some (.file i)
  dir : ∀ {k : List Name}, fs.node (k.reverse ++ d) = some .dir → D k

namespace Shows
variable {t : List UInt8} {d : Path} {T : List Name → Option (List UInt8)} {D : List Name → Prop}
  {fs fs' : FileSystem} {k : List Name} {c : Name}

theorem free (h : Shows t d T D fs) (none_ : T k = none) (other : ¬ D k) :
    fs.node (k.reverse ++ d) = none := by
  cases hn : fs.node (k.reverse ++ d) with
  | none => rfl
  | some n =>
      cases n with
      | dir => exact absurd (h.dir hn) other
      | file i => exact absurd (none_.symm.trans (h.file hn)) (by simp)

theorem mono {D' : List Name → Prop} (h : Shows t d T D fs) (wider : ∀ k, D k → D' k) :
    Shows t d T D' fs :=
  { h with dir := fun hk => wider _ (h.dir hk) }

/-- Names that are not there yet, in a directory that is. -/
theorem resolve (h : Shows t d T D fs) (ht : t ≠ []) (plain : ∀ x ∈ k, Plain x) (hc : Plain c)
    (parent : fs.node (k.reverse ++ d) = some .dir) :
    fs.resolve (t ++ joinPath (k ++ [c])) = some (c :: (k.reverse ++ d)) := by
  have split : t ++ joinPath (k ++ [c]) = (t ++ joinPath k) ++ slash :: c := by simp [joinPath]
  have below : fs.resolve (t ++ joinPath k) = some (k.reverse ++ d) := by
    clear split
    induction k using List.reverseRecOn with
    | nil => simpa [joinPath] using h.at_
    | append_singleton k x ih =>
        have up : fs.node (k.reverse ++ d) = some .dir := by
          rw [List.reverse_append, List.reverse_singleton, List.singleton_append,
            List.cons_append] at parent
          exact fs.node_parent parent
        have plain' : ∀ y ∈ k, Plain y := fun y hy => plain y (List.mem_append_left _ hy)
        have hx : Plain x := plain x (List.mem_append_right _ List.mem_cons_self)
        have one : t ++ joinPath (k ++ [x]) = (t ++ joinPath k) ++ slash :: x := by
          simp [joinPath]
        rw [one, fs.resolve_child (by simp [ht]) hx, ih plain' up]
        simp [up]
  rw [split, fs.resolve_child (by simp [ht]) hc, below]
  simp [parent]

/-- Directories stay and the working directory too: the path goes on naming the directory. -/
theorem rooted (h : Shows t d T D fs)
    (keep : ∀ q : Path, fs.node q = some .dir → fs'.node q = some .dir) (cwd : fs'.cwd = fs.cwd) :
    fs'.resolve t = some d ∧ fs'.node d = some .dir ∧ fs'.node fs'.cwd = some .dir :=
  ⟨resolve_mono keep cwd h.at_, keep d h.base, by rw [cwd]; exact keep _ h.here⟩

theorem key_eq {k k' : List Name} (h : k.reverse ++ d = k'.reverse ++ d) : k = k' :=
  List.reverse_injective (List.append_cancel_right h)

theorem key_cons (k : List Name) (c : Name) (d : Path) :
    c :: (k.reverse ++ d) = (k ++ [c]).reverse ++ d := by
  simp

/-! ## Directories on the way -/

theorem mem_chain {e q : Path} {cs : List Name} :
    q ∈ chain e cs ↔ ∃ k, k <+: cs ∧ q = k.reverse ++ e := by
  induction cs generalizing e with
  | nil => simp [chain]
  | cons c cs ih =>
      rw [chain, List.mem_cons, ih]
      constructor
      · rintro (rfl | ⟨k, hk, rfl⟩)
        · exact ⟨[], List.nil_prefix, rfl⟩
        · exact ⟨c :: k, List.cons_prefix_cons.mpr ⟨rfl, hk⟩, by simp⟩
      · rintro ⟨k, hk, rfl⟩
        cases k with
        | nil => exact .inl rfl
        | cons x k =>
            obtain ⟨rfl, below⟩ := List.cons_prefix_cons.mp hk
            exact .inr ⟨k, below, by simp⟩

/-- Every directory on the way is there or can be made. -/
theorem mkdirs (h : Shows t d T D fs) (strict : Bool) (ht : t ≠ []) (plain : ∀ x ∈ k, Plain x)
    (free : ∀ k', k' <+: k → T k' = none) :
    ∃ fs', fs.mkdirsFrom strict [] (t ++ joinPath k) = (fs', true) ∧
      Shows t d T (fun k' => D k' ∨ k' <+: k) fs' ∧ fs'.node (k.reverse ++ d) = some .dir := by
  cases k with
  | nil =>
      refine ⟨fs, ?_, h.mono fun _ => .inl, h.base⟩
      rw [joinPath, List.flatMap_nil, List.append_nil]
      exact mkdirsFrom_dir strict h.at_ h.base
  | cons c cs =>
      have way : ∀ q ∈ chain (c :: d) cs, ∃ k', k' <+: c :: cs ∧ q = k'.reverse ++ d := by
        intro q hq
        obtain ⟨k', hk, rfl⟩ := mem_chain.mp hq
        exact ⟨c :: k', List.cons_prefix_cons.mpr ⟨rfl, hk⟩, by simp⟩
      have passable : ∀ q ∈ chain (c :: d) cs, fs.node q = none ∨ fs.node q = some .dir := by
        intro q hq
        obtain ⟨k', hk, rfl⟩ := way q hq
        cases hn : fs.node (k'.reverse ++ d) with
        | none => exact .inl rfl
        | some n =>
            cases n with
            | dir => exact .inr rfl
            | file i => exact absurd ((free k' hk).symm.trans (h.file hn)) (by simp)
      obtain ⟨fs', made, node, data, -, cwd⟩ := mkdirsFrom_below strict ht h.at_ h.base
        (plain c List.mem_cons_self) (fun x hx => plain x (List.mem_cons_of_mem c hx)) passable
      have keep : ∀ q : Path, fs.node q = some .dir → fs'.node q = some .dir := by
        intro q hq
        rw [node]
        split
        · rfl
        · exact hq
      obtain ⟨at_, base, here⟩ := h.rooted keep cwd
      refine ⟨fs', made, ⟨at_, base, here, fun hf => ?_, fun hT => ?_, fun hd => ?_⟩, ?_⟩
      · rw [node] at hf
        split at hf
        · cases hf
        · rw [data]
          exact h.file hf
      · obtain ⟨i, hi⟩ := h.there hT
        refine ⟨i, ?_⟩
        rw [node, if_neg, hi]
        intro hq
        rcases passable _ hq with none_ | dir
        · exact absurd (none_.symm.trans hi) (by simp)
        · exact absurd (dir.symm.trans hi) (by simp)
      · rw [node] at hd
        split at hd
        · rename_i hq
          obtain ⟨k', hk, same⟩ := way _ hq
          exact .inr (key_eq same ▸ hk)
        · exact .inl (h.dir hd)
      · rw [node, if_pos]
        exact mem_chain.mpr ⟨cs, List.prefix_rfl, by simp⟩

/-! ## Files -/

/-- A file that is there. -/
theorem file_of (h : Shows t d T D fs) {b : List UInt8} (hT : T k = some b) :
    ∃ i, fs.node (k.reverse ++ d) = some (.file i) ∧ fs.data i = b := by
  obtain ⟨i, hi⟩ := h.there hT
  exact ⟨i, hi, (Option.some.inj (hT.symm.trans (h.file hi))).symm⟩

theorem stat_file (h : Shows t d T D fs) (ht : t ≠ []) (plain : ∀ x ∈ k, Plain x) (hc : Plain c)
    {b : List UInt8} (hT : T (k ++ [c]) = some b) :
    ∃ i, fs.stat (t ++ joinPath (k ++ [c])) = some (.file i) ∧ fs.data i = b ∧
      fs.node ((k ++ [c]).reverse ++ d) = some (.file i) := by
  obtain ⟨i, hi, data⟩ := h.file_of hT
  have at_ := hi
  rw [← key_cons] at hi
  refine ⟨i, ?_, data, at_⟩
  rw [stat, h.resolve ht plain hc (fs.node_parent hi), Option.bind_some, hi]

/-- What can be asked about names where there is no directory. -/
theorem queries (h : Shows t d T D fs) (ht : t ≠ []) (plain : ∀ x ∈ k, Plain x) (hc : Plain c)
    (parent : fs.node (k.reverse ++ d) = some .dir) (other : ¬ D (k ++ [c])) :
    fs.exist (t ++ joinPath (k ++ [c])) = (T (k ++ [c])).isSome ∧
      fs.read (t ++ joinPath (k ++ [c])) = T (k ++ [c]) ∧
      (fs.stat (t ++ joinPath (k ++ [c]))).map fs.nodeSize =
        (T (k ++ [c])).map List.length := by
  cases hT : T (k ++ [c]) with
  | none =>
      have nothing : fs.stat (t ++ joinPath (k ++ [c])) = none := by
        rw [stat, h.resolve ht plain hc parent, Option.bind_some, key_cons, h.free hT other]
      rw [exist, read, nothing]
      exact ⟨rfl, rfl, rfl⟩
  | some b =>
      obtain ⟨i, there, data, -⟩ := h.stat_file ht plain hc hT
      rw [exist, read, there]
      refine ⟨rfl, ?_, ?_⟩
      · rw [Option.map_some, nodeBytes, data]
      · rw [Option.map_some, nodeSize, data, Option.map_some]

/-- What is not a directory can be written, and is empty at first. -/
theorem openTrunc (h : Shows t d T D fs) (ht : t ≠ []) (plain : ∀ x ∈ k, Plain x) (hc : Plain c)
    (parent : fs.node (k.reverse ++ d) = some .dir) (other : ¬ D (k ++ [c])) :
    ∃ fs' i, fs.openTrunc (t ++ joinPath (k ++ [c])) = some (fs', i) ∧
      Shows t d (Function.update T (k ++ [c]) (some [])) D fs' ∧
      fs'.node ((k ++ [c]).reverse ++ d) = some (.file i) ∧
      fs'.node (k.reverse ++ d) = some .dir ∧
      ∀ q j, fs.node q = some (.file j) → fs'.node q = some (.file j) := by
  have noDir : fs.node (c :: (k.reverse ++ d)) ≠ some .dir := by
    rw [key_cons]
    exact fun hd => other (h.dir hd)
  obtain ⟨fs', i, opened, node, data, cwd, new⟩ :=
    openTrunc_spec (h.resolve ht plain hc parent) parent noDir
  have here' : fs'.node ((k ++ [c]).reverse ++ d) = some (.file i) := by
    rw [node, key_cons, if_pos rfl]
  have kept : ∀ q n, fs.node q = some n → fs'.node q = some n := by
    intro q n hq
    rw [node]
    split
    · rename_i same
      subst same
      rcases new with was | ⟨none_, -⟩
      · exact was.symm.trans hq
      · exact absurd (none_.symm.trans hq) (by simp)
    · exact hq
  have apart : ∀ {k' : List Name} {j : Nat}, k' ≠ k ++ [c] →
      fs.node (k'.reverse ++ d) = some (.file j) → j ≠ i := by
    rintro k' j ne hj rfl
    rcases new with was | ⟨-, fresh⟩
    · rw [key_cons] at was
      exact ne (key_eq (fs.ino_inj hj was))
    · exact absurd (fresh ▸ fs.ino_lt hj) (Nat.lt_irrefl _)
  obtain ⟨at_, base, here⟩ := h.rooted (fun q hq => kept q _ hq) cwd
  refine ⟨fs', i, opened, ⟨at_, base, here, fun {k' j} hf => ?_, fun {k' b} hT => ?_, fun hd => ?_⟩,
    here', kept _ _ parent, fun q j hq => kept q _ hq⟩
  · by_cases same : k' = k ++ [c]
    · subst same
      cases here'.symm.trans hf
      rw [Function.update_self, data, Function.update_self]
    · rw [node, key_cons, if_neg fun e => same (key_eq e).symm] at hf
      rw [Function.update_of_ne same, data, Function.update_of_ne (apart same hf)]
      exact h.file hf
  · by_cases same : k' = k ++ [c]
    · exact ⟨i, same ▸ here'⟩
    · rw [Function.update_of_ne same] at hT
      obtain ⟨j, hj⟩ := h.there hT
      exact ⟨j, kept _ _ hj⟩
  · rw [node, key_cons] at hd
    split at hd
    · cases hd
    · exact h.dir hd

/-- The bytes of a file are replaced. -/
theorem setData (h : Shows t d T D fs) {i : Nat} (at_ : fs.node (k.reverse ++ d) = some (.file i))
    (b : List UInt8) : Shows t d (Function.update T k (some b)) D (fs.setData i b) := by
  obtain ⟨named, base, here⟩ : (fs.setData i b).resolve t = some d ∧
      (fs.setData i b).node d = some .dir ∧
        (fs.setData i b).node (fs.setData i b).cwd = some .dir :=
    h.rooted (fun _ hq => hq) rfl
  refine ⟨named, base, here, fun {k' j} hf => ?_, fun {k' b'} hT => ?_, fun hd => h.dir hd⟩
  · rw [node_setData] at hf
    by_cases same : k' = k
    · subst same
      cases at_.symm.trans hf
      rw [Function.update_self, data_setData]
    · have other : j ≠ i := by
        rintro rfl
        exact same (key_eq (fs.ino_inj hf at_))
      have data : (fs.setData i b).data j = fs.data j := Function.update_of_ne other _ _
      rw [Function.update_of_ne same, data]
      exact h.file hf
  · by_cases same : k' = k
    · exact ⟨i, same ▸ at_⟩
    · rw [Function.update_of_ne same] at hT
      exact h.there hT

/-- A file gets another name in its directory, and takes the place of a file of that name. -/
theorem rename (h : Shows t d T D fs) (ht : t ≠ []) (plain : ∀ x ∈ k, Plain x) {c' : Name}
    (hc : Plain c) (hc' : Plain c') (differ : c ≠ c') {i : Nat}
    (at_ : fs.node ((k ++ [c]).reverse ++ d) = some (.file i)) (other : ¬ D (k ++ [c'])) :
    ∃ fs', fs.rename (t ++ joinPath (k ++ [c])) (t ++ joinPath (k ++ [c'])) = some fs' ∧
      Shows t d (Function.update (Function.update T (k ++ [c]) none) (k ++ [c'])
        (some (fs.data i))) D fs' := by
  rw [← key_cons] at at_
  have parent := fs.node_parent at_
  have noDir : fs.node (c' :: (k.reverse ++ d)) ≠ some .dir := by
    rw [key_cons]
    exact fun hd => other (h.dir hd)
  have lasts : ∀ {x : Name}, Plain x → lastPlain (t ++ joinPath (k ++ [x])) = true := by
    intro x hx
    rw [show t ++ joinPath (k ++ [x]) = (t ++ joinPath k) ++ slash :: x by simp [joinPath]]
    exact lastPlain_child hx
  obtain ⟨fs', moved, node, data, cwd⟩ := rename_file (h.resolve ht plain hc parent)
    (h.resolve ht plain hc' parent) differ (lasts hc) (lasts hc') at_ noDir
  have cwd : fs'.cwd = fs.cwd := by
    refine cwd.resolve_right fun under => ?_
    exact not_dir_of_suffix (by simp [at_]) under h.here
  have keep : ∀ q : Path, fs.node q = some .dir → fs'.node q = some .dir := by
    intro q hq
    rw [node, if_neg, if_neg, hq]
    · rintro rfl
      exact absurd (at_.symm.trans hq) (by simp)
    · rintro rfl
      exact noDir hq
  obtain ⟨named, base, here⟩ := h.rooted keep cwd
  refine ⟨fs', moved, ⟨named, base, here, fun {k' j} hf => ?_, fun {k' b} hT => ?_,
    fun {k'} hd => ?_⟩⟩
  · rw [node, key_cons, key_cons] at hf
    split at hf
    · rename_i same
      cases hf
      rw [← key_eq same, Function.update_self, data]
    · split at hf
      · cases hf
      · rename_i off off'
        rw [Function.update_of_ne fun e => off (by rw [e]),
          Function.update_of_ne fun e => off' (by rw [e]), data]
        exact h.file hf
  · rw [node, key_cons, key_cons]
    by_cases same : k' = k ++ [c']
    · exact ⟨i, if_pos (by rw [same])⟩
    · rw [Function.update_of_ne same] at hT
      by_cases old : k' = k ++ [c]
      · rw [old, Function.update_self] at hT
        cases hT
      · rw [Function.update_of_ne old] at hT
        obtain ⟨j, hj⟩ := h.there hT
        exact ⟨j, by rw [if_neg fun e => same (key_eq e).symm,
          if_neg fun e => old (key_eq e).symm, hj]⟩
  · rw [node, key_cons, key_cons] at hd
    split at hd
    · cases hd
    · split at hd
      · cases hd
      · exact h.dir hd

/-- A file is taken away. -/
theorem remove (h : Shows t d T D fs) (ht : t ≠ []) (plain : ∀ x ∈ k, Plain x) (hc : Plain c)
    {b : List UInt8} (hT : T (k ++ [c]) = some b) :
    ∃ fs', fs.remove (t ++ joinPath (k ++ [c])) = some fs' ∧
      Shows t d (Function.update T (k ++ [c]) none) D fs' := by
  obtain ⟨i, at_⟩ := h.there hT
  rw [← key_cons] at at_
  have named := h.resolve ht plain hc (fs.node_parent at_)
  obtain ⟨fs', removed, node, data, cwd⟩ :=
    remove_file named at_ (lastPlain_of_file named at_)
  have keep : ∀ q : Path, fs.node q = some .dir → fs'.node q = some .dir := by
    intro q hq
    rw [node, if_neg, hq]
    rintro rfl
    exact absurd (at_.symm.trans hq) (by simp)
  obtain ⟨named', base, here⟩ := h.rooted keep cwd
  refine ⟨fs', removed, named', base, here, fun {k' j} hf => ?_, fun {k' b} hT => ?_, fun hd => ?_⟩
  · rw [node, key_cons] at hf
    split at hf
    · cases hf
    · rename_i off
      rw [Function.update_of_ne fun e => off (by rw [e]), data]
      exact h.file hf
  · by_cases same : k' = k ++ [c]
    · rw [same, Function.update_self] at hT
      cases hT
    · rw [Function.update_of_ne same] at hT
      obtain ⟨j, hj⟩ := h.there hT
      exact ⟨j, by rw [node, key_cons, if_neg fun e => same (key_eq e).symm, hj]⟩
  · rw [node] at hd
    split at hd
    · cases hd
    · exact h.dir hd

end Shows

/-- A file's own bytes put back. -/
theorem setData_self (fs : FileSystem) (i : Nat) : fs.setData i (fs.data i) = fs := by
  rw [FileSystem.setData, Function.update_eq_self]

end Splice.Lib.FileSystem
