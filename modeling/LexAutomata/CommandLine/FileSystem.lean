namespace LexAutomata.CommandLine

/-- What a path leads to. -/
inductive Place where
  | file (contents : ByteArray)
  /-- A directory, or what else is there without contents. -/
  | other
  | missing

/-- A file system with states `σ`. How it resolves paths, and who may read or make what, is up to it. -/
structure FileSystem (σ : Type) where
  place : σ → String → Place
  read : σ → String → Except String ByteArray
  /-- Makes a new file, which then holds the bytes that are written to it, or says why it cannot. -/
  create : σ → String → Except String (ByteArray → σ)

end LexAutomata.CommandLine
