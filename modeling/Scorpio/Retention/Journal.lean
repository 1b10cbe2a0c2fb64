import Scorpio.Base.JsonText
import Scorpio.Base.LossyText
import Scorpio.Retention.Owners

/-!
# The resume journal

`read_journal`, `truncate_journal_tail` and `JournalBatch` of `snapshot::durable`
over the bytes of the journal. Records are appended as lines in bounded chunks;
a crash keeps any number of bytes; the next hydration reads the journal and cuts
it after the last whole line before it appends. An absent journal reads like an
empty one.

How a record is written and read is a parameter with named laws; the compact
JSON text and the lossy decoding satisfy them.
-/

set_option autoImplicit false

namespace Scorpio.Retention

open ByteText Fallible PageCodec JsonText LossyText

namespace Journal

open TornLines (Unbroken unlines whole upToLine unlines_append unlines_cons
  take_unlines split_unlines ends_line_iff up_to_line)

structure LineCodec where
  encode : FileRecord → Bytes
  decode : Text → Except Text FileRecord
  lossy : Bytes → Text
  blank : Text → Bool

/-- What is used of the serialiser and of the decoding. -/
structure LineLaws (c : LineCodec) (Valid : FileRecord → Prop) : Prop where
  unbroken : ∀ r, Valid r → Unbroken (c.encode r)
  kept : ∀ r, Valid r → c.lossy (c.encode r) = c.encode r
  printed : ∀ r, Valid r → c.blank (c.encode r) = false
  decoded : ∀ r, Valid r → c.decode (c.encode r) = .ok r
  lossyNewline : ∀ x rest,
    c.lossy (x ++ TornLines.newline :: rest) = c.lossy x ++ TornLines.newline :: c.lossy rest
  lossyUnbroken : ∀ x, Unbroken x → Unbroken (c.lossy x)
  blankNil : c.blank (c.lossy []) = true

/-! ## Reading and cutting -/

section Reading

variable (c : LineCodec)

def unreadable (index : ℕ) (e line : Text) : SnapshotError :=
  ⟨.internal,txt "journal record " ++ txt (toString index) ++ txt " unreadable (" ++ e ++
    txt "): " ++ line⟩

/-- The loop over the lines; `out` is the map by path. -/
def readLines : ℕ → List (Text × FileRecord) → List Text → Result (List (Text × FileRecord))
  | _, out, [] => .ok out
  | index, out, line :: rest =>
    if c.blank line then readLines (index+1) out rest
    else match c.decode line with
      | .ok record => readLines (index+1) (Assoc.insert out record.relPath record) rest
      | .error e => .error (unreadable index e line)

def readRecords (bytes : Bytes) : Result (List (Text × FileRecord)) :=
  let lines := (c.lossy bytes).splitOn TornLines.newline
  readLines c 0 [] (if TornLines.endsLine bytes then lines else lines.dropLast)

end Reading

/-! ## Batches -/

def journalMaxRecords : ℕ := 128

def journalMaxBytes : ℕ := 256*1024

structure JournalBuffer where
  bytes : Bytes
  records : ℕ

/-- A `JournalBatch` with the journal it appends to, and the buffers it has flushed. -/
structure Session where
  file : Bytes
  pending : JournalBuffer
  flushes : List JournalBuffer

namespace Session

variable (c : LineCodec)

def start (file : Bytes) : Session := ⟨file,⟨[],0⟩,[]⟩

def flushLocked (s : Session) : Session :=
  ⟨s.file ++ s.pending.bytes,⟨[],0⟩,s.flushes ++ [s.pending]⟩

/-- The flush that makes room for a line. -/
def makeRoom (s : Session) (line : Bytes) : Session :=
  if 0 < s.pending.records ∧ (s.pending.records = journalMaxRecords ∨
      journalMaxBytes < s.pending.bytes.length+line.length) then s.flushLocked else s

/-- A line is buffered, and a full buffer is flushed. -/
def buffer (s : Session) (line : Bytes) : Session :=
  let s := { s with pending := ⟨s.pending.bytes ++ line,s.pending.records+1⟩ }
  if s.pending.records = journalMaxRecords ∨ s.pending.bytes.length = journalMaxBytes then
    s.flushLocked
  else s

def append (s : Session) (record : FileRecord) : Session :=
  let line := c.encode record ++ [TornLines.newline]
  let s := s.makeRoom line
  if journalMaxBytes < line.length then { s with file := s.file ++ line } else s.buffer line

def appendAll (s : Session) (records : List FileRecord) : Session := records.foldl (append c) s

end Session

/-- A buffer holds the lines of its records and is within the limits. -/
structure Bounded (c : LineCodec) (b : JournalBuffer) : Prop where
  lines : ∃ rs : List FileRecord, rs.length = b.records ∧ b.bytes = unlines (rs.map c.encode)
  records : b.records ≤ journalMaxRecords
  size : b.bytes.length ≤ journalMaxBytes

/-- The journal and the buffer hold the lines appended so far, in order. -/
structure Buffered (c : LineCodec) (content : Bytes) (s : Session) : Prop where
  content : s.file ++ s.pending.bytes = content
  pending : Bounded c s.pending
  flushes : ∀ b ∈ s.flushes, Bounded c b

section Batches

variable {c : LineCodec} {content : Bytes} {s : Session}

theorem bounded_nil : Bounded c ⟨[],0⟩ := ⟨⟨[],rfl,rfl⟩,Nat.zero_le _,Nat.zero_le _⟩

theorem buffered_start (file : Bytes) : Buffered c file (.start file) :=
  ⟨List.append_nil _,bounded_nil,by simp [Session.start]⟩

theorem Buffered.flush (h : Buffered c content s) : Buffered c content s.flushLocked := by
  refine ⟨(List.append_nil _).trans h.content,bounded_nil,fun b hb => ?_⟩
  rcases List.mem_append.mp hb with hb | hb
  · exact h.flushes b hb
  · rw [List.mem_singleton.mp hb]
    exact h.pending

/-- After making room the line fits, or the buffer is empty. -/
theorem Buffered.room (h : Buffered c content s) (line : Bytes) :
    Buffered c content (s.makeRoom line) ∧ ((s.makeRoom line).pending = ⟨[],0⟩ ∨
      ((s.makeRoom line).pending.records < journalMaxRecords ∧
        (s.makeRoom line).pending.bytes.length+line.length ≤ journalMaxBytes)) := by
  unfold Session.makeRoom
  split
  · exact ⟨h.flush,.inl rfl⟩
  · rename_i hroom
    refine ⟨h,?_⟩
    have hrecords := h.pending.records
    by_cases hzero : s.pending.records = 0
    · obtain ⟨rs,hlength,hbytes⟩ := h.pending.lines
      rw [hzero] at hlength
      rw [List.length_eq_zero_iff.mp hlength] at hbytes
      left
      obtain ⟨file,⟨bytes,records⟩,flushes⟩ := s
      simp only at hzero hbytes ⊢
      rw [hzero, hbytes]
      rfl
    · right
      by_contra hfull
      apply hroom
      omega

theorem Buffered.buffer (h : Buffered c content s) (record : FileRecord)
    (hrecords : s.pending.records < journalMaxRecords)
    (hsize : s.pending.bytes.length+(c.encode record ++ [TornLines.newline]).length ≤
      journalMaxBytes) :
    Buffered c (content ++ (c.encode record ++ [TornLines.newline]))
      (s.buffer (c.encode record ++ [TornLines.newline])) := by
  have hnext : Buffered c (content ++ (c.encode record ++ [TornLines.newline]))
      { s with pending := ⟨s.pending.bytes ++ (c.encode record ++ [TornLines.newline]),
        s.pending.records+1⟩ } := by
    refine ⟨?_,⟨?_,hrecords,?_⟩,h.flushes⟩
    · rw [← h.content, List.append_assoc]
    · obtain ⟨rs,hlength,hbytes⟩ := h.pending.lines
      refine ⟨rs ++ [record],by simp [hlength],?_⟩
      rw [List.map_append, List.map_singleton, TornLines.unlines_snoc, ← hbytes,
        List.append_assoc]
    · rw [List.length_append]
      exact hsize
  unfold Session.buffer
  dsimp only
  split
  · exact hnext.flush
  · exact hnext

/-- Appending a record adds its line at the end. -/
theorem Buffered.append (h : Buffered c content s) (record : FileRecord) :
    Buffered c (content ++ unlines [c.encode record]) (s.append c record) := by
  rw [show unlines [c.encode record] = c.encode record ++ [TornLines.newline] by simp [unlines]]
  obtain ⟨hroom,hfits⟩ := h.room (c.encode record ++ [TornLines.newline])
  unfold Session.append
  dsimp only
  split
  · -- an oversized line goes to the journal directly, behind an empty buffer
    rename_i hover
    have hempty : (s.makeRoom (c.encode record ++ [TornLines.newline])).pending = ⟨[],0⟩ := by
      rcases hfits with hempty | ⟨_,hsize⟩
      · exact hempty
      · omega
    have hcontent := hroom.content
    rw [hempty, List.append_nil] at hcontent
    refine ⟨?_,hroom.pending,hroom.flushes⟩
    dsimp only
    rw [hempty, List.append_nil, hcontent]
  · rename_i hover
    apply hroom.buffer
    · rcases hfits with hempty | ⟨hrecords,_⟩
      · rw [hempty]
        exact Nat.zero_lt_succ _
      · exact hrecords
    · rcases hfits with hempty | ⟨_,hsize⟩
      · rw [hempty]
        simpa using hover
      · exact hsize

theorem Buffered.append_all (h : Buffered c content s) (rs : List FileRecord) :
    Buffered c (content ++ unlines (rs.map c.encode)) (s.appendAll c rs) := by
  induction rs generalizing content s with
  | nil => simpa [unlines, Session.appendAll] using h
  | cons r rs ih =>
    have hrest := ih (h.append r)
    rw [List.append_assoc, ← unlines_append] at hrest
    exact hrest

end Batches

/-! ## What is read -/

/-- The map of the records read in order: the last record of a path stands. -/
def collect (out : List (Text × FileRecord)) (rs : List FileRecord) : List (Text × FileRecord) :=
  rs.foldl (fun out r => Assoc.insert out r.relPath r) out

/-- Records of different files stand in the order in which they were read. -/
theorem collect_distinct (out : List (Text × FileRecord)) (rs : List FileRecord)
    (hdistinct : (Assoc.keys out ++ rs.map FileRecord.relPath).Nodup) :
    collect out rs = out ++ rs.map fun r => (r.relPath,r) := by
  induction rs generalizing out with
  | nil => simp [collect]
  | cons r rs ih =>
    have hnew : r.relPath ∉ Assoc.keys out := by
      intro hmem
      rw [List.nodup_append] at hdistinct
      exact hdistinct.2.2 _ hmem _ (by simp) rfl
    change collect (Assoc.insert out r.relPath r) rs = _
    rw [Assoc.insert_of_not_mem hnew, ih, List.append_assoc]
    · rfl
    · rw [Assoc.keys, List.map_append, List.append_assoc]
      exact hdistinct

section Recovery

variable {c : LineCodec} {Valid : FileRecord → Prop}

/-- Reading fails at a line that is not blank and does not parse, and at no other. -/
theorem read_lines_fails (lines : List Text) (index : ℕ) (out : List (Text × FileRecord)) :
    (∃ e, readLines c index out lines = .error e) ↔
      ∃ line ∈ lines, c.blank line = false ∧ ∃ e, c.decode line = .error e := by
  induction lines generalizing index out with
  | nil => simp [readLines]
  | cons line lines ih =>
    rw [readLines]
    cases hblank : c.blank line with
    | true =>
      rw [if_pos rfl, ih]
      simp [hblank]
    | false =>
      rw [if_neg Bool.false_ne_true]
      cases hdecode : c.decode line with
      | ok record =>
        dsimp only
        rw [ih]
        simp [hdecode]
      | error e => simp [hblank, hdecode]

theorem read_lines_records (L : LineLaws c Valid) (rs : List FileRecord) (hrs : ∀ r ∈ rs, Valid r)
    (index : ℕ) (out : List (Text × FileRecord)) (rest : List Text) :
    readLines c index out (rs.map c.encode ++ rest) =
      readLines c (index+rs.length) (collect out rs) rest := by
  induction rs generalizing index out with
  | nil => rfl
  | cons r rs ih =>
    have hr := hrs r (by simp)
    rw [List.map_cons, List.cons_append, readLines, L.printed r hr, if_neg Bool.false_ne_true,
      L.decoded r hr]
    dsimp only
    rw [ih fun r' hr' => hrs r' (by simp [hr']), List.length_cons, Nat.add_assoc, Nat.add_comm 1]
    rfl

theorem lossy_unlines (L : LineLaws c Valid) (xs : List Bytes) (tail : Bytes) :
    c.lossy (unlines xs ++ tail) = unlines (xs.map c.lossy) ++ c.lossy tail := by
  induction xs with
  | nil => rfl
  | cons x xs ih =>
    rw [unlines_cons, List.append_assoc, List.cons_append, L.lossyNewline, ih, List.map_cons,
      unlines_cons, List.append_assoc, List.cons_append]

/-- The lines that are read are the whole ones, and a blank one at the end of the file. -/
theorem read_records_lines (L : LineLaws c Valid) (xs : List Bytes)
    (hxs : ∀ x ∈ xs, Unbroken x) (tail : Bytes) (htail : Unbroken tail) :
    ∃ rest, (∀ line ∈ rest, c.blank line = true) ∧
      readRecords c (unlines xs ++ tail) = readLines c 0 [] (xs.map c.lossy ++ rest) := by
  have hlines : (c.lossy (unlines xs ++ tail)).splitOn TornLines.newline =
      xs.map c.lossy ++ [c.lossy tail] := by
    rw [lossy_unlines L]
    apply split_unlines
    · intro line hline
      obtain ⟨x,hx,rfl⟩ := List.mem_map.mp hline
      exact L.lossyUnbroken x (hxs x hx)
    · exact L.lossyUnbroken tail htail
  unfold readRecords
  dsimp only
  rw [hlines]
  split
  · rename_i hends
    have hnil := ((ends_line_iff xs tail htail).mp hends).1
    refine ⟨[c.lossy tail],?_,rfl⟩
    intro line hline
    rw [List.mem_singleton.mp hline, hnil]
    exact L.blankNil
  · refine ⟨[],by simp,?_⟩
    rw [List.dropLast_concat, List.append_nil]

theorem read_lines_blank (rest : List Text) (hrest : ∀ line ∈ rest, c.blank line = true)
    (index : ℕ) (out : List (Text × FileRecord)) : readLines c index out rest = .ok out := by
  induction rest generalizing index with
  | nil => rfl
  | cons line rest ih =>
    rw [readLines, hrest line (by simp), if_pos rfl]
    exact ih (fun l hl => hrest l (by simp [hl])) _

/-- A journal of whole records and a torn tail reads as the records. -/
theorem read_records_torn (L : LineLaws c Valid) (rs : List FileRecord) (hrs : ∀ r ∈ rs, Valid r)
    (tail : Bytes) (htail : Unbroken tail) :
    readRecords c (unlines (rs.map c.encode) ++ tail) = .ok (collect [] rs) := by
  have hxs : ∀ x ∈ rs.map c.encode, Unbroken x := by
    intro x hx
    obtain ⟨r,hr,rfl⟩ := List.mem_map.mp hx
    exact L.unbroken r (hrs r hr)
  obtain ⟨rest,hrest,hread⟩ := read_records_lines L _ hxs tail htail
  have hkept : (rs.map c.encode).map c.lossy = rs.map c.encode := by
    rw [List.map_map]
    apply List.map_congr_left
    exact fun r hr => L.kept r (hrs r hr)
  rw [hread, hkept, read_lines_records L rs hrs, read_lines_blank rest hrest]

/-- The journal is unreadable when a whole line is neither blank nor a record. -/
theorem read_records_fails (L : LineLaws c Valid) (xs : List Bytes)
    (hxs : ∀ x ∈ xs, Unbroken x) (tail : Bytes) (htail : Unbroken tail) :
    (∃ e, readRecords c (unlines xs ++ tail) = .error e) ↔
      ∃ x ∈ xs, c.blank (c.lossy x) = false ∧ ∃ e, c.decode (c.lossy x) = .error e := by
  obtain ⟨rest,hrest,hread⟩ := read_records_lines L xs hxs tail htail
  rw [hread, read_lines_fails]
  constructor
  · rintro ⟨line,hline,hblank,hdecode⟩
    rcases List.mem_append.mp hline with hline | hline
    · obtain ⟨x,hx,rfl⟩ := List.mem_map.mp hline
      exact ⟨x,hx,hblank,hdecode⟩
    · rw [hrest line hline] at hblank
      cases hblank
  · rintro ⟨x,hx,hblank,hdecode⟩
    exact ⟨c.lossy x,List.mem_append_left _ (List.mem_map_of_mem hx),hblank,hdecode⟩

end Recovery

/-! ## Crashes and resumes -/

/-- The records whose line ends in the first bytes of the journal. -/
def keptIn (c : LineCodec) : List FileRecord → ℕ → List FileRecord
  | [], _ => []
  | r :: rs, n => if (c.encode r).length+1 ≤ n then r :: keptIn c rs (n-((c.encode r).length+1))
      else []

/-- The journals that appends, crashes, compactions and resumes leave, with the records whose
newline was kept. A resumed journal is cut by `truncate_journal_tail` before the first append. -/
inductive Reaches (c : LineCodec) (Valid : FileRecord → Prop) : Bytes → List FileRecord → Prop
  | empty : Reaches c Valid [] []
  | crash {file : Bytes} {kept : List FileRecord} (h : Reaches c Valid file kept) (n : ℕ) :
      Reaches c Valid (file.take n) (keptIn c kept n)
  | round {file : Bytes} {kept : List FileRecord} (h : Reaches c Valid file kept)
      (rs : List FileRecord) (hrs : ∀ r ∈ rs, Valid r) (s : Session)
      (hs : s = (Session.start (upToLine file)).appendAll c rs ∨
        s = ((Session.start (upToLine file)).appendAll c rs).flushLocked) (n : ℕ) :
      Reaches c Valid (s.file.take n) (keptIn c (kept ++ rs) (s.file.take n).length)
  | compact {file : Bytes} {kept : List FileRecord} (h : Reaches c Valid file kept)
      (rs : List FileRecord) (hrs : ∀ r ∈ rs, Valid r) :
      Reaches c Valid (unlines (rs.map c.encode)) rs

section Rounds

variable {c : LineCodec} {Valid : FileRecord → Prop}

theorem kept_in_lines (rs : List FileRecord) (n : ℕ) :
    (keptIn c rs n).map c.encode = whole (rs.map c.encode) n := by
  induction rs generalizing n with
  | nil => rfl
  | cons r rs ih =>
    rw [keptIn, List.map_cons, whole]
    split
    · rw [List.map_cons, ih]
    · rfl

theorem kept_in_begins (rs : List FileRecord) (n : ℕ) : keptIn c rs n <+: rs := by
  induction rs generalizing n with
  | nil => exact List.prefix_refl _
  | cons r rs ih =>
    rw [keptIn]
    split
    · exact List.cons_prefix_cons.mpr ⟨rfl,ih _⟩
    · exact List.nil_prefix

/-- The journal is the kept records and a torn tail. -/
structure Torn (c : LineCodec) (Valid : FileRecord → Prop) (file : Bytes)
    (kept : List FileRecord) : Prop where
  valid : ∀ r ∈ kept, Valid r
  lines : ∃ tail, Unbroken tail ∧ file = unlines (kept.map c.encode) ++ tail

variable {file : Bytes} {kept : List FileRecord}

theorem Torn.take (L : LineLaws c Valid) (h : Torn c Valid file kept) (n : ℕ) :
    Torn c Valid (file.take n) (keptIn c kept n) := by
  refine ⟨fun r hr => h.valid r ((kept_in_begins kept n).subset hr),?_⟩
  obtain ⟨torn,htorn,rfl⟩ := h.lines
  rw [kept_in_lines]
  apply take_unlines _ _ torn htorn
  intro x hx
  obtain ⟨r,hr,rfl⟩ := List.mem_map.mp hx
  exact L.unbroken r (h.valid r hr)

theorem torn_unlines {rs : List FileRecord} (hrs : ∀ r ∈ rs, Valid r) :
    Torn c Valid (unlines (rs.map c.encode)) rs :=
  ⟨hrs,[],by simp [Unbroken],(List.append_nil _).symm⟩

/-- The repair cuts at the last record boundary. -/
theorem Torn.truncated (h : Torn c Valid file kept) :
    upToLine file = unlines (kept.map c.encode) := by
  obtain ⟨tail,htail,rfl⟩ := h.lines
  exact up_to_line _ tail htail

/-- A resumed batch extends the kept records by the appended ones. -/
theorem Torn.resumed (h : Torn c Valid file kept) (rs : List FileRecord) :
    Buffered c (unlines ((kept ++ rs).map c.encode))
      ((Session.start (upToLine file)).appendAll c rs) := by
  have happend := (buffered_start (c := c) (upToLine file)).append_all rs
  rw [h.truncated, ← unlines_append, ← List.map_append] at happend
  rw [h.truncated]
  exact happend

theorem Reaches.torn (L : LineLaws c Valid) (h : Reaches c Valid file kept) :
    Torn c Valid file kept := by
  induction h with
  | empty => exact ⟨fun r hr => (List.not_mem_nil hr).elim,[],by simp [Unbroken],rfl⟩
  | crash _ n ih => exact ih.take L n
  | @round file kept _ rs hrs s hs n ih =>
    have hbuffered : Buffered c (unlines ((kept ++ rs).map c.encode)) s := by
      rcases hs with rfl | rfl
      · exact ih.resumed rs
      · exact (ih.resumed rs).flush
    have hvalid : ∀ r ∈ kept ++ rs, Valid r := by
      intro r hr
      rcases List.mem_append.mp hr with hr | hr
      · exact ih.valid r hr
      · exact hrs r hr
    -- what the crash leaves is a beginning of the lines of all records
    have hbegins : s.file.take n <+: unlines ((kept ++ rs).map c.encode) :=
      (List.take_prefix n s.file).trans ⟨s.pending.bytes,hbuffered.content⟩
    rw [List.prefix_iff_eq_take.mp hbegins, List.length_take_of_le hbegins.length_le]
    exact (torn_unlines hvalid).take L _
  | compact _ rs hrs _ => exact torn_unlines hrs

end Rounds

/-! ## Records as JSON -/

/-- `serde_json::to_vec` of a record. -/
def recordText (r : FileRecord) : Bytes :=
  (Json.object [(txt "rel_path",.string r.relPath),(txt "digest",.string r.digest),
    (txt "size",.number r.size)]).toVec

def jsonCodec (decode : Text → Except Text FileRecord) : LineCodec :=
  ⟨recordText,decode,utf8Lossy,isBlank⟩

theorem clean_record (r : FileRecord) (hpath : validUtf8 r.relPath = true)
    (hdigest : validUtf8 r.digest = true) : Clean (recordText r) := by
  have hkeys : ∀ key ∈ [txt "rel_path",txt "digest",txt "size"], validUtf8 key = true := by
    decide +kernel
  apply clean_object
  intro f hf
  simp only [List.mem_cons, List.not_mem_nil, or_false] at hf
  rcases hf with rfl | rfl | rfl
  · exact ⟨hkeys _ (by simp),clean_quote hpath⟩
  · exact ⟨hkeys _ (by simp),clean_quote hdigest⟩
  · exact ⟨hkeys _ (by simp),clean_decimal r.size⟩

/-- The laws hold of the JSON text and any parser that reads the records back. -/
theorem json_laws (decode : Text → Except Text FileRecord) (Valid : FileRecord → Prop)
    (hutf8 : ∀ r, Valid r → validUtf8 r.relPath = true ∧ validUtf8 r.digest = true)
    (hdecode : ∀ r, Valid r → decode (recordText r) = .ok r) :
    LineLaws (jsonCodec decode) Valid where
  unbroken r hr := (clean_record r (hutf8 r hr).1 (hutf8 r hr).2).unbroken
  kept r hr := lossy_valid _ (clean_record r (hutf8 r hr).1 (hutf8 r hr).2).valid
  printed _ _ := rfl
  decoded := hdecode
  lossyNewline := lossy_newline
  lossyUnbroken := lossy_unbroken
  blankNil := rfl

/-! ## Recovery -/

/-- Whatever crashes and resumes came before, the journal reads as the records whose newline was
kept and is cut behind them, later appends follow them line by line, a whole line that is not
blank and is no record makes it unreadable, and a flush stays within its bounds. -/
theorem journal_recovers (c : LineCodec) (Valid : FileRecord → Prop) (L : LineLaws c Valid) :
    (∀ file kept, Reaches c Valid file kept →
      readRecords c file = .ok (collect [] kept) ∧
      ((kept.map FileRecord.relPath).Nodup →
        readRecords c file = .ok (kept.map fun r => (r.relPath,r))) ∧
      upToLine file = unlines (kept.map c.encode) ∧
      ∀ rs : List FileRecord, (∀ r ∈ rs, Valid r) →
        readRecords c ((Session.start (upToLine file)).appendAll c rs).flushLocked.file =
          .ok (collect [] (kept ++ rs))) ∧
    (∀ (xs : List Bytes) (tail : Bytes), (∀ x ∈ xs, Unbroken x) → Unbroken tail →
      ((∃ e, readRecords c (unlines xs ++ tail) = .error e) ↔
        ∃ x ∈ xs, c.blank (c.lossy x) = false ∧ ∃ e, c.decode (c.lossy x) = .error e)) ∧
    ∀ (file : Bytes) (rs : List FileRecord),
      let s := ((Session.start file).appendAll c rs).flushLocked
      s.file = file ++ unlines (rs.map c.encode) ∧ ∀ b ∈ s.flushes, Bounded c b := by
  refine ⟨fun file kept h => ?_,fun xs tail hxs htail => read_records_fails L xs hxs tail htail,
    fun file rs => ?_⟩
  · have htorn := h.torn L
    have hread : readRecords c file = .ok (collect [] kept) := by
      obtain ⟨tail,htail,rfl⟩ := htorn.lines
      exact read_records_torn L kept htorn.valid tail htail
    refine ⟨hread,fun hdistinct => ?_,htorn.truncated,fun rs hrs => ?_⟩
    · rw [hread, collect_distinct [] kept hdistinct]
      rfl
    · have hresumed := (htorn.resumed rs).flush.content
      have hvalid : ∀ r ∈ kept ++ rs, Valid r := by
        intro r hr
        rcases List.mem_append.mp hr with hr | hr
        · exact htorn.valid r hr
        · exact hrs r hr
      rw [← read_records_torn L (kept ++ rs) hvalid [] (by simp [Unbroken]), List.append_nil,
        ← hresumed]
      exact congrArg _ (List.append_nil _).symm
  · have hbuffered := ((buffered_start (c := c) file).append_all rs).flush
    exact ⟨(List.append_nil _).symm.trans hbuffered.content,hbuffered.flushes⟩

namespace Sample

def first : FileRecord := ⟨txt "a",txt "sha256:00",1⟩

def second : FileRecord := ⟨txt "b",txt "sha256:01",2⟩

def third : FileRecord := ⟨txt "c",txt "sha256:02",3⟩

/-- The second record with another size. -/
def altered : FileRecord := ⟨txt "b",txt "sha256:01",7⟩

def records : List FileRecord := [first,second,third,altered]

def decode (text : Text) : Except Text FileRecord :=
  match records.find? (fun r => recordText r = text) with
  | some r => .ok r
  | none => .error (txt "expected value")

def codec : LineCodec := jsonCodec decode

theorem codec_laws : LineLaws codec (· ∈ records) := by
  apply json_laws
  · decide +kernel
  · intro r hr
    have hread : ∀ r ∈ records, (decode (recordText r)).toOption = some r := by
      decide +kernel
    exact to_option_ok.mp (hread r hr)

end Sample

/-- A journal of two records is cut inside the second one and resumed with the third. -/
theorem journal_recovers_sample : readRecords Sample.codec
    ((Session.start (upToLine ((unlines ([Sample.first,Sample.second].map
      Sample.codec.encode)).take 60))).appendAll Sample.codec [Sample.third]).flushLocked.file =
    .ok (collect [] [Sample.first,Sample.third]) := by
  have hkept : keptIn Sample.codec [Sample.first,Sample.second] 60 = [Sample.first] := by
    decide +kernel
  have hreached : Reaches Sample.codec (· ∈ Sample.records)
      ((unlines ([Sample.first,Sample.second].map Sample.codec.encode)).take 60) [Sample.first] := by
    rw [← hkept]
    exact .crash (.compact .empty _ (by simp [Sample.records])) 60
  have hrecovers := journal_recovers Sample.codec _ Sample.codec_laws
  exact (hrecovers.1 _ _ hreached).2.2.2 [Sample.third] (by simp [Sample.records])

/-- A record in the middle of the journal is overwritten, once with blanks and once with another
size. The journal is read without an error; the record is lost or taken as it stands. -/
theorem damage_unnoticed : LineLaws Sample.codec (· ∈ Sample.records) ∧
    (readRecords Sample.codec (unlines [recordText Sample.first,
      List.replicate (recordText Sample.second).length 32,recordText Sample.third])).toOption =
        some [(txt "a",Sample.first),(txt "c",Sample.third)] ∧
    (readRecords Sample.codec (unlines [recordText Sample.first,
      recordText Sample.altered,recordText Sample.third])).toOption =
        some [(txt "a",Sample.first),(txt "b",Sample.altered),(txt "c",Sample.third)] :=
  ⟨Sample.codec_laws,by decide +kernel,by decide +kernel⟩

end Journal

end Scorpio.Retention
