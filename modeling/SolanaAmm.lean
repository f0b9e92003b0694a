import SolanaAmm.Lib.Result
import SolanaAmm.Lib.Machine
import SolanaAmm.Lib.Word
import SolanaAmm.Lib.Fixed
import SolanaAmm.Lib.Lists
import SolanaAmm.Lib.Maps
import SolanaAmm.Lib.Store
import SolanaAmm.Lib.Token
import SolanaAmm.Lib.RingBuffer
import SolanaAmm.Common
import SolanaAmm.Decimal
import SolanaAmm.Amm.Models
import SolanaAmm.Amm.Helpers
import SolanaAmm.Amm.MulDiv
import SolanaAmm.Amm.StableCurveInvariant
import SolanaAmm.Amm.Newton
import SolanaAmm.Amm.SwapEquation
import SolanaAmm.Amm.Pool
import SolanaAmm.Amm.Endpoints
import SolanaAmm.Amm.Moved
import SolanaAmm.Amm.Maps
import SolanaAmm.Amm.Liquidity
import SolanaAmm.Amm.Backing
import SolanaAmm.Amm.Swapping
import SolanaAmm.Amm.ConstantProduct
import SolanaAmm.Amm.Freshness
import SolanaAmm.Farming.Models
import SolanaAmm.Farming.Farm
import SolanaAmm.Farming.Farmer
import SolanaAmm.Farming.Endpoints
import SolanaAmm.Farming.Snapshots
import SolanaAmm.Farming.Stakes
import SolanaAmm.Farming.Unclaimed
import SolanaAmm.Farming.Effects
import SolanaAmm.Farming.Steps
import SolanaAmm.Farming.Moves
import SolanaAmm.Farming.StakeVault
import SolanaAmm.Farming.Shares
import SolanaAmm.Farming.Rates
import SolanaAmm.Farming.Harvesting
import SolanaAmm.Farming.Cursor
import SolanaAmm.Farming.Projection
import SolanaAmm.Farming.Vesting
import SolanaAmm.Farming.Earnings
import SolanaAmm.Farming.Solvency
import SolanaAmm.Amm.Limits
import SolanaAmm.Amm.Toll
import SolanaAmm.Amm.Vaults
import SolanaAmm.Amm.Custody
import SolanaAmm.Amm.Effects
import SolanaAmm.Amm.Outstanding
import SolanaAmm.Amm.Permuted
import SolanaAmm.Farming.Periods
import SolanaAmm.Farming.Retention
import SolanaAmm.Farming.PerSlot
import SolanaAmm.Farming.Updates
import SolanaAmm.Farming.Splitting
import SolanaAmm.Lib.Value
import SolanaAmm.Lib.Newton
import SolanaAmm.Amm.Descent
import SolanaAmm.Amm.Accuracy
import SolanaAmm.Amm.Progress
import SolanaAmm.Farming.History
import SolanaAmm.Farming.Timeline
import SolanaAmm.Lib.Rounding
import SolanaAmm.Amm.Proportion
import SolanaAmm.Amm.Quadratic
import SolanaAmm.Amm.Selling
import SolanaAmm.Farming.Withdrawal
import SolanaAmm.Lib.Slots
import SolanaAmm.Farming.Claims
import SolanaAmm.Farming.Entries
import SolanaAmm.Farming.Bookkeeping
import SolanaAmm.Farming.Payouts
import SolanaAmm.Amm.StableSwap
import SolanaAmm.Amm.Convergence
import SolanaAmm.Farming.Funding
import SolanaAmm.Farming.Outcomes
import SolanaAmm.Farming.Outflows
import SolanaAmm.Farming.Wealth
import SolanaAmm.Farming.Governance
import SolanaAmm.Farming.Batches
import SolanaAmm.Amm.Governance
import SolanaAmm.Amm.Outflows
import SolanaAmm.Farming.Compounding
import SolanaAmm.Lib.Circulation
import SolanaAmm.Farming.Exits
import SolanaAmm.Amm.Exits
import SolanaAmm.Lib.Fund
import SolanaAmm.Amm.Holding
import SolanaAmm.Lib.Exchange
import SolanaAmm.Amm.Quotes
import SolanaAmm.Farming.Parts
import SolanaAmm.Farming.Leaving
import SolanaAmm.Amm.Scaling
