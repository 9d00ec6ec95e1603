import WhileAsm.Build.Workplace
import WhileAsm.Main
import WhileAsm.Proofs.Allocation
import WhileAsm.Proofs.Preservation
import WhileAsm.Proofs.Resolution
import WhileAsm.Text.Base64
import WhileAsm.Proofs.Exclusion
import WhileAsm.Proofs.Acceptance
import WhileAsm.Proofs.History
import WhileAsm.Proofs.Layout
import WhileAsm.Proofs.Symbols
import WhileAsm.Proofs.ExprContext
import WhileAsm.Proofs.Recast
import WhileAsm.Proofs.Stages
import WhileAsm.Proofs.Legible
import WhileAsm.Proofs.Unambiguous
import WhileAsm.Proofs.Relocation
import WhileAsm.Proofs.Operands
import WhileAsm.Proofs.Reading
import WhileAsm.Proofs.Pieces
import WhileAsm.Proofs.Listings
import WhileAsm.Proofs.Immediates
import WhileAsm.Proofs.Transfers
import WhileAsm.Proofs.Widening
import WhileAsm.Proofs.Likeness
import WhileAsm.Proofs.KeyOrder
import WhileAsm.Proofs.Aliases
import WhileAsm.Proofs.Reports
import WhileAsm.Proofs.Containment
