import Ece391Kernel.Grep.Writes
import Ece391Kernel.Process.Lookup
import Ece391Kernel.Programs.Cat
import Ece391Kernel.Programs.Ls

/-!
# `grep`

The program goes through the directory and searches the files that it names, with `do_one_file` for
each. Between any two of its calls the rest of the system goes on, but for control-C and arguments
that are too long; the clock, if it is searched, is taken to answer. What the stack holds when
`do_one_file` is called is arbitrary, and may differ from call to call.
-/

namespace Ece391Kernel

open TransitionSystem ByteMemory Lines Programs

/-- The variables of `main`, and how many files have been searched. -/
structure GrepMain where
  search : Int → UInt8
  buf : Int → UInt8
  fd : Int
  turn : Nat

/-- The variables of `do_one_file`. -/
structure GrepFile where
  fd : Int
  data : Int → UInt8
  last : Nat

/-- Where `grep` is: before a call, or behind its end. -/
inductive GrepPlace
  | start (search buf : Int → UInt8)
  | complaint (text : String) (code : Int)
  | named (search buf : Int → UInt8)
  | listing (g : GrepMain)
  | opening (g : GrepMain)
  | reading (g : GrepMain) (f : GrepFile)
  | printing (g : GrepMain) (f : GrepFile) (cnt : Nat) (w : Nat → UInt8)
      (ws : List (Nat → UInt8))
  | closing (g : GrepMain) (f : GrepFile)
  | exited (code : Int)

/-- The next string is written; behind the last one the loop reads on, or the file is closed. -/
def printNext (g : GrepMain) (f : GrepFile) (cnt : Nat) : List (Nat → UInt8) → GrepPlace
  | [] => if cnt = 0 then .closing g f else .reading g f
  | w :: ws => .printing g f cnt w ws

/-- The search of what a read has delivered behind `last`. -/
def searchRead (g : GrepMain) (f : GrepFile) (cnt : Nat) (data : Int → UInt8) : GrepPlace :=
  let s := stringAt g.search 0
  let fname := stringAt g.buf 0
  let b := searchBuffer s fname (ece391Strlen s) cnt ⟨data, f.last + cnt, []⟩ 0
  printNext g ⟨f.fd, b.data, b.last⟩ cnt
    (bufferWrites s fname (ece391Strlen s) cnt (f.last + cnt) data 0)

/-- `main` of `ece391grep.c`, and `do_one_file`. -/
def grep (stack : Nat → Int → UInt8) : GrepPlace → Action UserCall UserReturn GrepPlace
  | .start search buf => .call (.getargs search 1024) fun r =>
      if 0 ≠ r.ret then .complaint "could not read argument\n" 3
      else .named (r.buf.getD search) buf
  | .complaint text code => .call (fdputs 1 (message text)) fun _ => .exited code
  | .named search buf => .call (.openFile (constant ".")) fun r =>
      if -1 = r.ret then .complaint "directory open failed\n" 2
      else .listing ⟨search, buf, r.ret, 0⟩
  | .listing g => .call (.read g.fd g.buf 32) fun r =>
      if 0 ≠ r.ret then
        if -1 = r.ret then .complaint "directory entry read failed\n" 3
        else if 0x2E = r.buf.getD g.buf 0 then .listing { g with buf := r.buf.getD g.buf }
        else .opening { g with buf := Function.update (r.buf.getD g.buf) r.ret 0 }
      else .exited 0
  | .opening g => .call (.openFile g.buf) fun r =>
      if -1 = r.ret then .complaint "file open failed\n" 3
      else .reading g ⟨r.ret, stack g.turn, 0⟩
  | .reading g f => .call (.read f.fd (fun i => f.data (f.last + i)) (1024 - f.last : Nat)) fun r =>
      if -1 = r.ret then .complaint "file read failed\n" 3
      else searchRead g f r.ret.toNat fun i =>
        r.buf.getD (fun i => f.data (f.last + i)) (i - f.last)
  | .printing g f cnt w ws => .call (fdputs 1 w) fun _ => printNext g f cnt ws
  | .closing g f => .call (.close f.fd) fun r =>
      if -1 = r.ret then .complaint "file close failed\n" 3
      else .listing { g with turn := g.turn + 1 }
  | .exited code => .exit code

/-! ## What it should do -/

/-- A name that begins with a dot is passed over. -/
def Hidden (b : Boot) (i : Nat) : Prop := (entryName b i).head? = some 0x2E

instance (b : Boot) (i : Nat) : Decidable (Hidden b i) := inferInstanceAs (Decidable (_ = _))

/-- There is a directory under the name `.`, no two names are the same, and the names that are not
passed over are not those of directories. -/
structure GrepImage (b : Boot) (d : Nat) : Prop extends GoodImage b d where
  dot : ∀ idx, findDirentry b dotName.at = some idx → direntryType b idx = dirFile
  distinct : ∀ i < d, ∀ j < d, entryName b i = entryName b j → i = j
  files : ∀ i < d, ¬Hidden b i → direntryType b i ≠ dirFile

/-- What `do_one_file` prints for a file, with this in its buffer when it is called. -/
def fileOutput (data : Int → UInt8) (s : Nat → UInt8) (name file : List UInt8) : List UInt8 :=
  ((doOneFile (fileCalls file) (file.length + 1) data s (literal name)).map Prod.snd).getD []

section Outcome

variable (b : Boot) (d : Nat)

/-- What is printed for some entries. -/
def grepFrom (stack : Nat → Int → UInt8) (s : Nat → UInt8) : Nat → List Nat → List UInt8
  | _, [] => []
  | turn, i :: is =>
      if Hidden b i then grepFrom stack s turn is
      else fileOutput (stack turn) s (entryName b i) (contentOf b d i) ++
        grepFrom stack s (turn + 1) is

/-- The calls that these entries take, but for the writes. -/
def grepCost : List Nat → Nat
  | [] => 1
  | i :: is => (if Hidden b i then 1 else (contentOf b d i).length + 4) + grepCost is

/-- What `grep` prints for its argument, and its exit code. -/
def grepOutcome (stack : Nat → Int → UInt8) (search : Option (Int → UInt8)) : Int × List UInt8 :=
  match search with
  | none => (3, ece391Fdputs (message "could not read argument\n"))
  | some search =>
      match findDirentry b dotName.at with
      | none => (2, ece391Fdputs (message "directory open failed\n"))
      | some _ => (0, grepFrom b d stack (stringAt search 0) 0 (List.range d))

end Outcome

/-- The buffer that the first call has filled, if it has succeeded. -/
def searchGiven (trace : List (UserCall × UserReturn)) : Option (Int → UInt8) :=
  match trace with
  | (.getargs buf _, r) :: _ => if r.ret = 0 then some (r.buf.getD buf) else none
  | _ => none

theorem searchGiven_concat {trace : List (UserCall × UserReturn)} (hne : trace ≠ [])
    (e : UserCall × UserReturn) : searchGiven (trace ++ [e]) = searchGiven trace := by
  cases trace with
  | nil => exact absurd rfl hne
  | cons first rest =>
      obtain ⟨c, r⟩ := first
      cases c <;> rfl

/-- The entries from one on, the first of them taken out. -/
theorem range'_pred {d p : Nat} (hp : p < d) :
    List.range' p (d - p) = p :: List.range' (p + 1) (d - (p + 1)) := by
  obtain ⟨n, hn⟩ : ∃ n, d - p = n + 1 := ⟨d - p - 1, by omega⟩
  rw [hn, List.range'_succ]
  congr 2
  omega

/-- `do_one_file` ends, and prints this. -/
theorem fileOutput_eq (data : Int → UInt8) (s fname : Nat → UInt8) {name : List UInt8}
    (hname : Spells fname name) (file : List UInt8) :
    readLoop s fname (ece391Strlen s) (fileCalls file) (file.length + 1) file ⟨data, 0, []⟩ =
      some (0, fileOutput data s name file) := by
  obtain ⟨total, htotal⟩ : ∃ total, readLoop s fname (ece391Strlen s) (fileCalls file)
      (file.length + 1) file ⟨data, 0, []⟩ = some (0, total) :=
    readLoop_ends file (Nat.lt_succ_self file.length) (Nat.zero_lt_succ 1023) data []
  have hsame : ece391Fdputs fname = ece391Fdputs (literal name) := by
    rw [hname.fdputs_eq, (spells_literal hname.ne_zero hname.length_lt).fdputs_eq]
  have hone : doOneFile (fileCalls file) (file.length + 1) data s (literal name) =
      some (0, total) := by
    rw [← htotal, readLoop_fname hsame]
    rfl
  rw [htotal, fileOutput, hone]
  rfl

/-! ## Files -/

/-- A descriptor of a file of which these bytes have not been read. -/
inductive FileAt (b : Boot) : List UInt8 → FileDesc → Prop
  | regular {inode position : Nat} {rest : List UInt8} (hinode : inode < 64)
      (hle : position ≤ inodeLength b inode)
      (hrest : (fileContent b inode).drop position = rest) :
      FileAt b rest (fileDesc inode position)
  | clock (inode position : Int) : FileAt b [] ⟨driverOps .rtc, inode, position, 0⟩

section Files

variable {b : Boot} {d fd : Nat} {k : Kernel}

/-- A read delivers as many bytes as are asked for and left. -/
theorem FileAt.read (hwf : WellFormedImage b) {rest : List UInt8} (h : FileAt b rest (k.table fd))
    (hlo : firstRegFile ≤ fd) (hhi : fd < lastRegFile) (size : Nat) (hpos : 0 < size)
    (hsize : size < 0x80000000) (buf : Int → UInt8) :
    ∃ k', performCall b (.read fd buf size) k =
        some (⟨(rest.take size).length, some (storeFrom buf 0 (rest.take size))⟩, k') ∧
      FileAt b (rest.drop size) (k'.table fd) ∧ ∀ j ≠ fd, k'.table j = k.table j := by
  generalize hdesc : k.table fd = desc at h
  cases h with
  | regular hinode hle hrest =>
      rename_i inode position
      obtain ⟨k', hread, hafter, -⟩ := sysRead_file hwf hinode hlo hhi hdesc hle hpos hsize buf
      rw [hrest] at hread hafter
      obtain ⟨hcall, hothers⟩ := performCall_read hread
      refine ⟨k', hcall, ?_, hothers⟩
      have hlen : rest.length = inodeLength b inode - position := by
        rw [← hrest, List.length_drop, fileContent_length]
      rw [hafter]
      refine .regular hinode ?_ ?_
      · rw [List.length_take]
        omega
      · rw [← List.drop_drop, hrest]
        rcases Nat.le_total size rest.length with hle' | hge
        · rw [List.length_take_of_le hle']
        · rw [List.take_of_length_le hge, List.drop_length, List.drop_of_length_le hge]
  | clock inode position =>
      obtain ⟨k', hread⟩ := yields_rtc b size inode position k fd buf hlo hhi hdesc
      obtain ⟨hcall, hothers⟩ := performCall_read hread
      obtain ⟨position', hafter⟩ := sysRead_position hread fd
      rw [List.take_nil, List.drop_nil]
      refine ⟨k', hcall, ?_, hothers⟩
      rw [hafter, hdesc]
      exact .clock inode position'

/-- The file of an entry that is no directory. -/
theorem fileAt_open (himage : GoodImage b d) {idx : Nat} (hidx : idx < d)
    (htype : direntryType b idx ≠ dirFile) (desc : FileDesc) :
    FileAt b (contentOf b d idx) (bindDriver b idx { desc with flag := 0, filePosition := 0 }) := by
  have hlt : (idx : Int) < dirCount b := by
    rw [himage.lists.count]
    exact_mod_cast hidx
  have htypes := himage.types idx hlt
  simp only [List.mem_cons, List.not_mem_nil, or_false] at htypes
  unfold contentOf bindDriver
  rcases htypes with h | h | h
  · rw [if_neg (by rw [h]; decide), if_neg (by rw [h]; decide), if_pos h]
    exact .clock 0 0
  · exact absurd h htype
  · have hinode := himage.inodes idx hidx h
    have hsigned : int32 (direntryInode b idx : Nat) = (direntryInode b idx : Int) :=
      int32_of_lt (by omega)
    rw [if_pos h, if_neg (by rw [h]; decide), if_neg (by rw [h]; decide), if_pos h, hsigned]
    exact .regular hinode (Nat.zero_le _) rfl

/-- A name of the directory finds its own entry. -/
theorem findDirentry_name (himage : GrepImage b d) {idx : Nat} (hidx : idx < d)
    {buf : Int → UInt8} (hname : Spells (stringAt buf 0) (entryName b idx)) :
    findDirentry b (bufferString buf).at = some idx := by
  have hshort : (entryName b idx).length ≤ filenameLen := stringFrom_length_le _ _ _
  have hstring : bufferString buf = ⟨entryName b idx, hname.ne_zero⟩ := bufferString_eq hname
  rw [hstring]
  refine (findDirentry_open b _ idx).mpr ⟨?_, ?_, fun j hj heq => ?_⟩
  · rw [himage.lists.count]
    exact_mod_cast hidx
  · exact (List.take_of_length_le hshort).symm
  · rw [List.take_of_length_le hshort] at heq
    exact absurd (himage.distinct j (by omega) idx hidx heq) (by omega)

end Files

end Ece391Kernel
