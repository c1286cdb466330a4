import PhraseServer.Chunk
import PhraseServer.Chunk.Names
import PhraseServer.CommandLine
import PhraseServer.ConfigFile
import PhraseServer.FileSystem
import PhraseServer.Inbound
import PhraseServer.Json
import PhraseServer.Json.Parser
import PhraseServer.Json.Printer
import PhraseServer.Language
import PhraseServer.Log
import PhraseServer.Loop
import PhraseServer.Main
import PhraseServer.Number.Binary64
import PhraseServer.Number.Shortest
import PhraseServer.Outline
import PhraseServer.Path
import PhraseServer.Pipeline
import PhraseServer.Position
import PhraseServer.Program
import PhraseServer.Proofs.Agreement
import PhraseServer.Proofs.Atomicity
import PhraseServer.Proofs.Directories
import PhraseServer.Proofs.Edits
import PhraseServer.Proofs.Fragments
import PhraseServer.Proofs.Framing
import PhraseServer.Proofs.Independence
import PhraseServer.Proofs.JsonText
import PhraseServer.Proofs.Lexemes
import PhraseServer.Proofs.Lexing
import PhraseServer.Proofs.LockStep
import PhraseServer.Proofs.Munching
import PhraseServer.Proofs.Outlining
import PhraseServer.Proofs.PathTexts
import PhraseServer.Proofs.Paths
import PhraseServer.Proofs.Positions
import PhraseServer.Proofs.Replay
import PhraseServer.Proofs.Replies
import PhraseServer.Proofs.Resync
import PhraseServer.Proofs.Rewinding
import PhraseServer.Proofs.Utf8
import PhraseServer.Reply
import PhraseServer.Request
import PhraseServer.Scope
import PhraseServer.Search
import PhraseServer.Session
import PhraseServer.Settings
import PhraseServer.Survey
import PhraseServer.Text.Lowercase
import PhraseServer.Text.Printable
import PhraseServer.Text.Quoted
import PhraseServer.Text.Space
import PhraseServer.Text.Utf8
import PhraseServer.Token
import PhraseServer.Token.Lexer
import PhraseServer.Wire
import PhraseServer.Proofs.Reuse
import PhraseServer.Proofs.Recovery
import PhraseServer.Proofs.PhraseStarts
import PhraseServer.Proofs.Chunking
import PhraseServer.Proofs.Declarations
import PhraseServer.Proofs.ModulePaths
import PhraseServer.Proofs.Diagnostics
import PhraseServer.Proofs.Scoping
import PhraseServer.Proofs.Coordinates
import PhraseServer.Proofs.Embedding
import PhraseServer.Proofs.NormalForms
import PhraseServer.Proofs.Lookup
import PhraseServer.Proofs.Refusals
import PhraseServer.Proofs.Grammar
import PhraseServer.Proofs.Precedence
import PhraseServer.Proofs.Parents
import PhraseServer.Proofs.Surroundings
